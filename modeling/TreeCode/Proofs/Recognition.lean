import TreeCode.Proofs.Grammar
import TreeCode.Proofs.Nesting
import TreeCode.Proofs.Phrases

/-!
# The reader and the grammar

The reader accepts exactly the texts that the grammar derives, with the expression that it derives
(`derives_of_ofText`, `ofText_of_derives`).  Both directions go along the tokens that are scanned
from a cursor on: what a reading function takes from them is a derivation up to the cursor from
which the others are scanned, and a derivation leads the function to the same cursor.

The reader looks at places only to report them, so texts with the same tokens are read as the same
expression up to places.
-/

namespace TreeCode.Source

open Cursor

variable {stop fuel depth : Nat} {c c' : Cursor} {rest : List Lexeme}

/-! ## What is read is derived -/

lemma ValueAt.of_readAtom {l : Lexeme} {v : Value} (htoken : TokenAt c l.token c')
    (h : readAtom l = .ok v) : ValueAt c v c' := by
  obtain ⟨position, t⟩ := l
  cases htoken with
  | word word =>
    obtain rfl := Except.ok.inj h
    exact .word word
  | number run =>
    simp only [readAtom, String.toList_ofList] at h
    split at h
    · rename_i v' hvalue
      obtain rfl := Except.ok.inj h
      exact .number run hvalue
    · cases h
  | text quoted =>
    obtain rfl := Except.ok.inj h
    exact .text quoted
  | punctuation hch _ =>
    unfold punctuation? at hch
    split at hch <;> cases hch <;> cases h

lemma readAtom_of_isStray {l : Lexeme} {v : Value} (hstray : l.token.IsStray) :
    readAtom l ≠ .ok v := by
  obtain ⟨position, t⟩ := l
  rcases hstray with rfl | ⟨ch, rfl⟩ <;> simp [readAtom]

/-- In a list, what is no bracket and no comma is read as a value. -/
lemma readList_of_ne {start : Nat} {first : Bool} {l : Lexeme} (stop : Nat)
    (hclose : l.token ≠ .closeBracket) (hcomma : l.token ≠ .comma) :
    readList start (fuel + 1) first (l :: rest) = (do
      let (value, rest) ← readValue stop fuel (l :: rest)
      let (values, rest) ← readList start fuel false rest
      .ok (value :: values, rest)) := by
  rw [readList, readValue]
  by_cases hopen : l.token = .openBracket
  · simp only [hopen, if_true]
    cases readList l.position fuel true rest <;> rfl
  · rw [if_neg hopen]
    split
    · contradiction
    · contradiction
    · contradiction
    · cases readAtom l <;> rfl

mutual

/-- The rest of a list is read up to its bracket. -/
lemma items_of_readList : ∀ {fuel start : Nat} {first : Bool} {c : Cursor} {vs : List Value}
    {rest : List Lexeme}, readList start fuel first c.lexemes = .ok (vs, rest) →
      ∃ c', rest = c'.lexemes ∧
        if first then ∀ c₀, c₀.Spans ['['] c → ValueAt c₀ (.list vs) c' else ItemsAt c vs c'
  | 0, _, _, _, _, _, h => by simp [readList] at h
  | fuel + 1, start, first, c, vs, rest, h => by
    cases hlexemes : c.lexemes with
    | nil => simp [hlexemes, readList] at h
    | cons l more =>
      by_cases hclose : l.token = .closeBracket
      · obtain ⟨c₁, c₂, htrivia, -, hspans, rfl⟩ :=
          exists_spans ']' hlexemes (by rw [hclose]; rfl)
        simp only [hlexemes, readList, hclose, Except.ok.injEq, Prod.mk.injEq] at h
        obtain ⟨rfl, rfl⟩ := h
        refine ⟨c₂, rfl, ?_⟩
        split
        · exact fun c₀ hopen => .emptyList hopen htrivia hspans
        · exact .close htrivia hspans
      by_cases hcomma : l.token = .comma
      · obtain ⟨c₁, c₂, htrivia, -, hspans, rfl⟩ :=
          exists_spans ',' hlexemes (by rw [hcomma]; rfl)
        cases first with
        | true => simp [hlexemes, readList, hcomma] at h
        | false =>
          simp only [hlexemes, readList, hcomma, Bool.false_eq_true, if_false] at h
          obtain ⟨c', rfl, hitems⟩ := items_of_readList h
          exact ⟨c', rfl, .comma htrivia hspans hitems⟩
      · rw [hlexemes, readList_of_ne 0 hclose hcomma, ← hlexemes] at h
        obtain ⟨⟨v, rest₁⟩, hvalue, h⟩ := Except.bind_eq_ok_iff.mp h
        obtain ⟨⟨vs', rest₂⟩, hitems, h⟩ := Except.bind_eq_ok_iff.mp h
        obtain ⟨rfl, rfl⟩ := Prod.mk.inj (Except.ok.inj h)
        obtain ⟨c₁, c₂, htrivia, hv, rfl⟩ := value_of_readValue hvalue
        obtain ⟨c', rfl, hvs⟩ := items_of_readList hitems
        refine ⟨c', rfl, ?_⟩
        split
        · exact fun c₀ hopen => .list hopen htrivia hv hvs
        · exact .value htrivia hv hvs
termination_by fuel => (fuel, 0)

/-- A value is read behind blanks and comments. -/
lemma value_of_readValue {stop fuel : Nat} {c : Cursor} {v : Value} {rest : List Lexeme}
    (h : readValue stop fuel c.lexemes = .ok (v, rest)) :
    ∃ c₁ c₂, Trivia c c₁ ∧ ValueAt c₁ v c₂ ∧ rest = c₂.lexemes := by
  cases hlexemes : c.lexemes with
  | nil => simp [hlexemes, readValue] at h
  | cons l more =>
    rw [hlexemes, readValue] at h
    split at h
    · rename_i hopen
      obtain ⟨c₁, c₂, htrivia, -, hspans, rfl⟩ :=
        exists_spans '[' hlexemes (by rw [hopen]; rfl)
      obtain ⟨⟨vs, rest'⟩, hlist, h⟩ := Except.bind_eq_ok_iff.mp h
      obtain ⟨rfl, rfl⟩ := Prod.mk.inj (Except.ok.inj h)
      obtain ⟨c', rfl, hvs⟩ := items_of_readList hlist
      exact ⟨c₁, c', htrivia, hvs c₁ hspans, rfl⟩
    · obtain ⟨v', hatom, h⟩ := Except.bind_eq_ok_iff.mp h
      obtain ⟨rfl, rfl⟩ := Prod.mk.inj (Except.ok.inj h)
      obtain ⟨c₁, htrivia, -, ⟨c₂, htoken, rfl⟩ | hstray⟩ := exists_of_lexemes_eq_cons hlexemes
      · exact ⟨c₁, c₂, htrivia, .of_readAtom htoken hatom, rfl⟩
      · exact absurd hatom (readAtom_of_isStray hstray)
termination_by (fuel, 1)

end

/-- What a value begins with. -/
lemma ValueAt.exists_token {v : Value} (h : ValueAt c v c') : ∃ t c₁, TokenAt c t c₁ ∧
    t ≠ .closeBracket ∧ t ≠ .comma ∧ t ≠ .openParen ∧ t ≠ .closeParen := by
  cases h with
  | word word => exact ⟨_, _, .word word, by simp⟩
  | number run => exact ⟨_, _, .number run, by simp⟩
  | text quoted => exact ⟨_, _, .text quoted, by simp⟩
  | emptyList opens | list opens =>
    exact ⟨.openBracket, _, .punctuation rfl opens, by simp⟩

/-- A field is read behind blanks and comments. -/
lemma field_of_readField {f : Field} (h : readField stop fuel c.lexemes = .ok (f, rest)) :
    ∃ c₁ c₂, Trivia c c₁ ∧ FieldAt c₁ f c₂ ∧ rest = c₂.lexemes := by
  unfold readField at h
  split at h
  · rename_i position key position' more hlexemes
    obtain ⟨⟨v, rest'⟩, hvalue, h⟩ := Except.bind_eq_ok_iff.mp h
    obtain ⟨rfl, rfl⟩ := Prod.mk.inj (Except.ok.inj h)
    obtain ⟨c₁, c₂, htrivia, rfl, hword, hmore⟩ := exists_word hlexemes
    obtain ⟨c₃, c₄, htrivia', -, hequals, rfl⟩ := exists_spans '=' hmore.symm rfl
    obtain ⟨c₅, c₆, htrivia'', hv, rfl⟩ := value_of_readValue hvalue
    exact ⟨c₁, c₆, htrivia, .keyed hword htrivia' hequals htrivia'' hv, rfl⟩
  · rename_i hkey
    obtain ⟨⟨v, rest'⟩, hvalue, h⟩ := Except.bind_eq_ok_iff.mp h
    obtain ⟨rfl, rfl⟩ := Prod.mk.inj (Except.ok.inj h)
    obtain ⟨c₁, c₂, htrivia, hv, rfl⟩ := value_of_readValue hvalue
    obtain ⟨t, c₃, htoken, -⟩ := hv.exists_token
    have hposition : nextPosition stop c.lexemes = c₁.position := by
      rw [htrivia.lexemes_eq, htoken.lexemes_eq]
      rfl
    rw [hposition]
    refine ⟨c₁, c₂, htrivia, .bare hv fun name hword ⟨c₄, c₅, htrivia', hequals⟩ => ?_, rfl⟩
    refine hkey c₁.position name c₄.position c₅.lexemes ?_
    rw [htrivia.lexemes_eq, hword.lexemes_eq, htrivia'.lexemes_eq, hequals.lexemes_eq rfl]

/-- A parenthesis and a head are read. -/
lemma opening_of_readOpening {opening : Opening}
    (h : readOpening stop depth c.lexemes = .ok (opening, rest)) :
    depth < maxDepth ∧ ∃ c₁ c₂ c₃ c₄, Trivia c c₁ ∧ opening.position = c₁.position ∧
      c₁.Spans ['('] c₂ ∧ Trivia c₂ c₃ ∧ Word c₃ opening.head c₄ ∧ rest = c₄.lexemes := by
  refine ⟨depth_lt_of_readOpening h, ?_⟩
  unfold readOpening at h
  split at h
  · rename_i position more hlexemes
    obtain ⟨c₁, c₂, htrivia, rfl, hopen, rfl⟩ := exists_spans '(' hlexemes rfl
    split at h
    · cases h
    split at h
    · rename_i position' head more' hlexemes'
      obtain ⟨rfl, rfl⟩ := Prod.mk.inj (Except.ok.inj h)
      obtain ⟨c₃, c₄, htrivia', -, hword, rfl⟩ := exists_word hlexemes'
      exact ⟨c₁, c₂, c₃, c₄, htrivia, rfl, hopen, htrivia', hword, rfl⟩
    · cases h
  · cases h

/-- The fields and children of an expression are read up to its parenthesis. -/
lemma body_of_readBody {opening : Opening} {body : Body}
    (h : readBody stop fuel depth opening c.lexemes = .ok (body, rest)) :
    ∃ c', BodyAt depth c body c' ∧ rest = c'.lexemes := by
  induction fuel generalizing depth opening c body rest with
  | zero => simp [readBody] at h
  | succ fuel ih =>
    cases hlexemes : c.lexemes with
    | nil => simp [hlexemes, readBody] at h
    | cons l more =>
      by_cases hclose : l.token = .closeParen
      · obtain ⟨c₁, c₂, htrivia, -, hspans, rfl⟩ :=
          exists_spans ')' hlexemes (by rw [hclose]; rfl)
        simp only [hlexemes, readBody, hclose, Except.ok.injEq, Prod.mk.injEq] at h
        obtain ⟨rfl, rfl⟩ := h
        exact ⟨c₂, .close htrivia hspans, rfl⟩
      by_cases hopen : l.token = .openParen
      · rw [hlexemes, readBody] at h
        simp only [hopen] at h
        rw [← hlexemes] at h
        obtain ⟨⟨inner, rest₁⟩, hopening, h⟩ := Except.bind_eq_ok_iff.mp h
        obtain ⟨⟨body₁, rest₂⟩, hinner, h⟩ := Except.bind_eq_ok_iff.mp h
        obtain ⟨⟨others, rest₃⟩, hothers, h⟩ := Except.bind_eq_ok_iff.mp h
        obtain ⟨rfl, rfl⟩ := Prod.mk.inj (Except.ok.inj h)
        obtain ⟨hdepth, c₁, c₂, c₃, c₄, htrivia, hposition, hspans, htrivia', hword, rfl⟩ :=
          opening_of_readOpening hopening
        obtain ⟨c₅, hbody, rfl⟩ := ih hinner
        obtain ⟨c₆, hmore, rfl⟩ := ih hothers
        rw [hposition]
        exact ⟨c₆, .child htrivia (.expr hdepth hspans htrivia' hword hbody) hmore, rfl⟩
      · rw [hlexemes, readBody_of_ne hopen hclose, ← hlexemes] at h
        obtain ⟨⟨f, rest₁⟩, hfield, h⟩ := Except.bind_eq_ok_iff.mp h
        obtain ⟨⟨others, rest₂⟩, hothers, h⟩ := Except.bind_eq_ok_iff.mp h
        obtain ⟨rfl, rfl⟩ := Prod.mk.inj (Except.ok.inj h)
        obtain ⟨c₁, c₂, htrivia, hf, rfl⟩ := field_of_readField hfield
        obtain ⟨c₃, hmore, rfl⟩ := ih hothers
        exact ⟨c₃, .field htrivia hf hmore, rfl⟩

/-- **A text is read as an expression that it derives.** -/
theorem derives_of_ofText {text : String} {e : Expr} (h : Expr.ofText text = .ok e) :
    Derives text e := by
  obtain ⟨⟨opening, rest⟩, hopening, h⟩ := Except.bind_eq_ok_iff.mp h
  obtain ⟨⟨body, rest'⟩, hbody, h⟩ := Except.bind_eq_ok_iff.mp h
  have hstart : scan 0 text.toList = (start text).lexemes := rfl
  rw [hstart] at hopening hbody
  obtain ⟨hdepth, c₁, c₂, c₃, c₄, htrivia, hposition, hspans, htrivia', hword, rfl⟩ :=
    opening_of_readOpening hopening
  obtain ⟨c₅, hbody', hrest⟩ := body_of_readBody hbody
  cases rest' with
  | nil =>
    obtain rfl := Except.ok.inj h
    obtain ⟨c₆, htrivia'', hend⟩ := exists_of_lexemes_eq_nil hrest.symm
    rw [hposition]
    exact ⟨c₁, c₅, c₆, htrivia, .expr hdepth hspans htrivia' hword hbody', htrivia'', hend⟩
  | cons l more => simp at h

/-! ## What is derived is read -/

/-- There is fuel for a token. -/
lemma exists_fuel {l : Lexeme} {more : List Lexeme} (h : (l :: more).length ≤ fuel) :
    ∃ fuel', fuel = fuel' + 1 := by
  rw [List.length_cons] at h
  exact ⟨fuel - 1, by omega⟩

/-- A list goes on behind a value. -/
lemma readList_of_readValue {start : Nat} {first : Bool} {v : Value} {vs : List Value}
    {more : List Lexeme} (hvalue : ValueAt c v c') (hfuel : c.lexemes.length ≤ fuel)
    (hread : ∀ {fuel}, c.lexemes.length ≤ fuel + 1 → readValue 0 fuel c.lexemes = .ok (v, more))
    (hless : more.length < c.lexemes.length)
    (hmore : ∀ {fuel}, more.length ≤ fuel → readList start fuel false more = .ok (vs, rest)) :
    readList start fuel first c.lexemes = .ok (v :: vs, rest) := by
  obtain ⟨t, c₁, htoken, hclose, hcomma, -⟩ := hvalue.exists_token
  rw [htoken.lexemes_eq] at hfuel hread hless ⊢
  obtain ⟨fuel, rfl⟩ := exists_fuel hfuel
  rw [readList_of_ne 0 hclose hcomma, hread hfuel]
  simp only [Except.ok_bind, hmore (Nat.le_of_lt_succ (Nat.lt_of_lt_of_le hless hfuel))]

mutual

/-- A value is read up to where it ends. -/
lemma readValue_of_valueAt : ∀ {c : Cursor} {v : Value} {c' : Cursor}, ValueAt c v c' →
    c'.lexemes.length < c.lexemes.length ∧ ∀ {stop fuel : Nat}, c.lexemes.length ≤ fuel + 1 →
      readValue stop fuel c.lexemes = .ok (v, c'.lexemes)
  | _, _, _, .word word => by
    rw [word.lexemes_eq]
    exact ⟨Nat.lt_succ_self _, fun _ => rfl⟩
  | _, _, _, .number run hvalue => by
    rw [run.lexemes_eq]
    exact ⟨Nat.lt_succ_self _, fun _ => by simp [readValue, readAtom, hvalue]⟩
  | _, _, _, .text quoted => by
    rw [quoted.lexemes_eq]
    exact ⟨Nat.lt_succ_self _, fun _ => rfl⟩
  | _, _, _, .emptyList opens trivia closes => by
    rw [opens.lexemes_eq rfl, trivia.lexemes_eq, closes.lexemes_eq rfl]
    refine ⟨Nat.lt_succ_of_lt (Nat.lt_succ_self _), fun hfuel => ?_⟩
    obtain ⟨fuel, rfl⟩ := exists_fuel (Nat.le_of_succ_le_succ hfuel)
    simp [readValue, readList]
  | _, _, _, .list opens trivia first items => by
    obtain ⟨hless, hfirst⟩ := readValue_of_valueAt first
    obtain ⟨hless', hitems⟩ := readList_of_itemsAt items
    rw [opens.lexemes_eq rfl, trivia.lexemes_eq]
    refine ⟨Nat.lt_succ_of_lt (Nat.lt_trans hless' hless), fun hfuel => ?_⟩
    simp only [readValue, if_true]
    rw [readList_of_readValue first (Nat.le_of_succ_le_succ hfuel) hfirst hless hitems,
      Except.ok_bind]

/-- The rest of a list is read up to where it ends. -/
lemma readList_of_itemsAt : ∀ {c : Cursor} {vs : List Value} {c' : Cursor}, ItemsAt c vs c' →
    c'.lexemes.length < c.lexemes.length ∧ ∀ {start fuel : Nat}, c.lexemes.length ≤ fuel →
      readList start fuel false c.lexemes = .ok (vs, c'.lexemes)
  | _, _, _, .close trivia closes => by
    rw [trivia.lexemes_eq, closes.lexemes_eq rfl]
    refine ⟨Nat.lt_succ_self _, fun hfuel => ?_⟩
    obtain ⟨fuel, rfl⟩ := exists_fuel hfuel
    rfl
  | _, _, _, .comma trivia comma items => by
    obtain ⟨hless, hitems⟩ := readList_of_itemsAt items
    rw [trivia.lexemes_eq, comma.lexemes_eq rfl]
    refine ⟨Nat.lt_succ_of_lt hless, fun hfuel => ?_⟩
    obtain ⟨fuel, rfl⟩ := exists_fuel hfuel
    simp [readList, hitems (Nat.le_of_succ_le_succ hfuel)]
  | _, _, _, .value trivia value items => by
    obtain ⟨hless, hvalue⟩ := readValue_of_valueAt value
    obtain ⟨hless', hitems⟩ := readList_of_itemsAt items
    rw [trivia.lexemes_eq]
    exact ⟨Nat.lt_trans hless' hless,
      fun hfuel => readList_of_readValue value hfuel hvalue hless hitems⟩

end

/-- What a field begins with. -/
lemma FieldAt.exists_token {f : Field} (h : FieldAt c f c') : ∃ t c₁, TokenAt c t c₁ ∧
    t ≠ .openParen ∧ t ≠ .closeParen := by
  cases h with
  | keyed word => exact ⟨_, _, .word word, by simp⟩
  | bare value =>
    obtain ⟨t, c₁, htoken, -, -, hopen, hclose⟩ := value.exists_token
    exact ⟨t, c₁, htoken, hopen, hclose⟩

/-- Where a value begins with a word and an equals sign, it is the word and the sign follows. -/
lemma ValueAt.word_of_lexemes {v : Value} {key : String} {position position' : Nat}
    (hvalue : ValueAt c v c')
    (h : c.lexemes = ⟨position, .word key⟩ :: ⟨position', .equals⟩ :: rest) :
    Word c key c' ∧ EqualsFollows c' := by
  have hword : Word c key c' := by
    cases hvalue with
    | word word =>
      obtain ⟨hl, -⟩ := List.cons.inj (h.symm.trans word.lexemes_eq)
      obtain ⟨-, hname⟩ := Lexeme.mk.inj hl
      rwa [Token.word.inj hname]
    | number run => simp [run.lexemes_eq] at h
    | text quoted => simp [quoted.lexemes_eq] at h
    | emptyList opens | list opens => simp [opens.lexemes_eq (t := .openBracket) rfl] at h
  have hequals := (List.cons.inj (h.symm.trans hword.lexemes_eq)).2
  obtain ⟨c₁, c₂, htrivia, -, hspans, -⟩ := exists_spans '=' hequals.symm rfl
  exact ⟨hword, c₁, c₂, htrivia, hspans⟩

/-- A field is read up to where it ends. -/
lemma readField_of_fieldAt {f : Field} (h : FieldAt c f c') :
    c'.lexemes.length < c.lexemes.length ∧ ∀ {stop fuel : Nat}, c.lexemes.length ≤ fuel + 1 →
      readField stop fuel c.lexemes = .ok (f, c'.lexemes) := by
  cases h with
  | keyed word trivia equals trivia' value =>
    obtain ⟨hless, hvalue⟩ := readValue_of_valueAt value
    rw [word.lexemes_eq, trivia.lexemes_eq, equals.lexemes_eq rfl, trivia'.lexemes_eq]
    simp only [List.length_cons]
    refine ⟨by omega, fun hfuel => ?_⟩
    simp only [readField, hvalue (Nat.le_of_add_right_le (k := 2) hfuel), Except.ok_bind]
  | bare value not_key =>
    obtain ⟨hless, hvalue⟩ := readValue_of_valueAt value
    refine ⟨hless, fun {stop fuel} hfuel => ?_⟩
    have hposition : nextPosition stop c.lexemes = c.position := by
      obtain ⟨t, c₁, htoken, -⟩ := value.exists_token
      rw [htoken.lexemes_eq]
      rfl
    unfold readField
    split
    · rename_i position key position' more hlexemes
      obtain ⟨hword, hequals⟩ := value.word_of_lexemes hlexemes
      exact absurd hequals (not_key key hword)
    · rw [hvalue hfuel, hposition]
      rfl

lemma readOpening_of_word {c₁ c₂ c₃ : Cursor} {head : String} (stop : Nat)
    (hdepth : depth < maxDepth)
    (hopen : c.Spans ['('] c₁) (htrivia : Trivia c₁ c₂) (hword : Word c₂ head c₃) :
    readOpening stop depth c.lexemes = .ok (⟨c.position, head⟩, c₃.lexemes) := by
  rw [hopen.lexemes_eq rfl, htrivia.lexemes_eq, hword.lexemes_eq]
  simp only [readOpening]
  rw [if_neg (by omega)]

/-- The fields and children of an expression are read up to where they end. -/
lemma readBody_of_bodyAt : ∀ {depth : Nat} {c : Cursor} {body : Body} {c' : Cursor},
    BodyAt depth c body c' → c'.lexemes.length < c.lexemes.length ∧
      ∀ {stop fuel : Nat} {opening : Opening}, c.lexemes.length ≤ fuel →
        readBody stop fuel depth opening c.lexemes = .ok (body, c'.lexemes)
  | _, _, _, _, .close trivia closes => by
    rw [trivia.lexemes_eq, closes.lexemes_eq rfl]
    refine ⟨Nat.lt_succ_self _, fun hfuel => ?_⟩
    obtain ⟨fuel, rfl⟩ := exists_fuel hfuel
    rfl
  | _, _, _, _, .child trivia (.expr nested opens trivia' word body_at) more => by
    obtain ⟨hless, hbody⟩ := readBody_of_bodyAt body_at
    obtain ⟨hless', hmore⟩ := readBody_of_bodyAt more
    have hopening := fun stop => readOpening_of_word stop nested opens trivia' word
    rw [trivia.lexemes_eq]
    rw [opens.lexemes_eq rfl, trivia'.lexemes_eq, word.lexemes_eq] at hopening ⊢
    simp only [List.length_cons]
    refine ⟨by omega, fun {stop fuel opening} hfuel => ?_⟩
    obtain ⟨fuel, rfl⟩ : ∃ fuel', fuel = fuel' + 1 := ⟨fuel - 1, by omega⟩
    rw [readBody]
    simp only [hopening, Except.ok_bind]
    rw [hbody (by omega), Except.ok_bind]
    simp only [hmore (show _ ≤ fuel by omega), Except.ok_bind]
  | _, _, _, _, .field trivia field more => by
    obtain ⟨t, c₁, htoken, hopen, hclose⟩ := field.exists_token
    obtain ⟨hless, hfield⟩ := readField_of_fieldAt field
    obtain ⟨hless', hmore⟩ := readBody_of_bodyAt more
    rw [trivia.lexemes_eq]
    refine ⟨Nat.lt_trans hless' hless, fun {stop fuel opening} hfuel => ?_⟩
    rw [htoken.lexemes_eq] at hfuel hfield hless ⊢
    obtain ⟨fuel, rfl⟩ := exists_fuel hfuel
    rw [readBody_of_ne hopen hclose, hfield hfuel]
    simp only [Except.ok_bind, hmore (Nat.le_of_lt_succ (Nat.lt_of_lt_of_le hless hfuel))]

/-- **A text is read as the expression that it derives.** -/
theorem ofText_of_derives {text : String} {e : Expr} (h : Derives text e) :
    Expr.ofText text = .ok e := by
  obtain ⟨c₁, c₂, c₃, htrivia, hexpr, htrivia', hend⟩ := h
  have hstart : scan 0 text.toList = c₁.lexemes := htrivia.lexemes_eq
  have hrest : c₂.lexemes = [] := by rw [htrivia'.lexemes_eq, lexemes, hend, scan]
  cases hexpr with
  | expr nested opens trivia word body_at =>
    obtain ⟨-, hbody⟩ := readBody_of_bodyAt body_at
    have hlength : c₁.lexemes.length = _ := congrArg List.length (opens.lexemes_eq rfl)
    rw [trivia.lexemes_eq, word.lexemes_eq, List.length_cons, List.length_cons] at hlength
    simp only [Expr.ofText, Expr.ofTokens, hstart, readOpening_of_word _ nested opens trivia word,
      Except.ok_bind]
    rw [hbody (by omega), Except.ok_bind, hrest]

/-! ## Blanks and comments -/

/-- A text cut into tokens, with blanks and comments around each of them. -/
inductive Lexed : Cursor → List Token → Prop
  | done {c c' : Cursor} (trivia : Trivia c c') (at_end : c'.rest = []) : Lexed c []
  | token {c c₁ c₂ : Cursor} {t : Token} {ts : List Token} (trivia : Trivia c c₁)
      (token : TokenAt c₁ t c₂) (more : Lexed c₂ ts) : Lexed c (t :: ts)

/-- Two texts that differ in nothing but the blanks and comments around their tokens. -/
def SameTokens (text text' : String) : Prop := ∃ ts, Lexed (start text) ts ∧ Lexed (start text') ts

lemma Lexed.map_token {ts : List Token} (h : Lexed c ts) : c.lexemes.map Lexeme.token = ts := by
  induction h with
  | done trivia at_end => rw [trivia.lexemes_eq, lexemes, at_end, scan, List.map_nil]
  | token trivia token _ ih => rw [trivia.lexemes_eq, token.lexemes_eq, List.map_cons, ih]

/-- A text in which nothing stray is scanned is cut into what is scanned. -/
lemma Lexed.of_map_token {ts : List Token} (h : c.lexemes.map Lexeme.token = ts)
    (hstray : ∀ t ∈ ts, ¬t.IsStray) : Lexed c ts := by
  induction ts generalizing c with
  | nil =>
    obtain ⟨c', htrivia, hend⟩ := exists_of_lexemes_eq_nil (List.map_eq_nil_iff.mp h)
    exact .done htrivia hend
  | cons t ts ih =>
    obtain ⟨l, more, hlexemes, rfl, hmore⟩ := List.map_eq_cons_iff.mp h
    obtain ⟨hl, hts⟩ := List.forall_mem_cons.mp hstray
    obtain ⟨c₁, htrivia, -, ⟨c₂, htoken, rfl⟩ | hl'⟩ := exists_of_lexemes_eq_cons hlexemes
    · exact .token htrivia htoken (ih hmore hts)
    · exact absurd hl' hl

/-- A field as it is written, wherever it stands. -/
def Field.unplaced (f : Field) : Field := { f with position := 0 }

mutual

/-- An expression as it is written, wherever it and its parts stand. -/
def Expr.unplaced : Expr → Expr
  | .expr form children =>
    .expr ⟨form.head, 0, form.fields.map Field.unplaced⟩ (Expr.allUnplaced children)

/-- Expressions as they are written. -/
def Expr.allUnplaced : List Expr → List Expr
  | [] => []
  | e :: es => Expr.unplaced e :: Expr.allUnplaced es

end

/-- The same tokens, at any places. -/
def SameLexemes : List Lexeme → List Lexeme → Prop := List.Forall₂ fun l l' => l.token = l'.token

variable {lexemes lexemes' : List Lexeme}

lemma readAtom_of_token_eq {l l' : Lexeme} {v : Value} (hl : l.token = l'.token)
    (h : readAtom l = .ok v) : readAtom l' = .ok v := by
  obtain ⟨position, t⟩ := l
  obtain ⟨position', t'⟩ := l'
  obtain rfl : t = t' := hl
  cases t with
  | word name | text body => exact h
  | number literal =>
    simp only [readAtom] at h ⊢
    cases hvalue : literalValue? literal.toList with
    | none => simp [hvalue] at h
    | some v' => simpa [hvalue] using h
  | _ => simp [readAtom] at h

mutual

/-- The rest of a list is read as the same values. -/
lemma readList_of_sameLexemes : ∀ {fuel start : Nat} (start' : Nat) {first : Bool}
    {vs : List Value} {lexemes lexemes' rest : List Lexeme}, SameLexemes lexemes lexemes' →
      readList start fuel first lexemes = .ok (vs, rest) →
      ∃ rest', readList start' fuel first lexemes' = .ok (vs, rest') ∧ SameLexemes rest rest'
  | 0, _, _, _, _, _, _, _, _, h => by simp [readList] at h
  | fuel + 1, _, _, _, _, [], _, _, _, h => by simp [readList] at h
  | fuel + 1, start, start', first, vs, l :: more, l' :: more', rest, .cons hl hmore, h => by
    by_cases hclose : l.token = .closeBracket
    · simp only [readList, hclose, Except.ok.injEq, Prod.mk.injEq] at h
      obtain ⟨rfl, rfl⟩ := h
      exact ⟨more', by simp [readList, ← hl, hclose], hmore⟩
    by_cases hcomma : l.token = .comma
    · cases first with
      | true => simp [readList, hcomma] at h
      | false =>
        simp only [readList, hcomma, Bool.false_eq_true, if_false] at h
        obtain ⟨rest', hread, hrest⟩ := readList_of_sameLexemes start' hmore h
        exact ⟨rest', by simp [readList, ← hl, hcomma, hread], hrest⟩
    · rw [readList_of_ne 0 hclose hcomma] at h
      obtain ⟨⟨v, rest₁⟩, hvalue, h⟩ := Except.bind_eq_ok_iff.mp h
      obtain ⟨⟨vs', rest₂⟩, hitems, h⟩ := Except.bind_eq_ok_iff.mp h
      obtain ⟨rfl, rfl⟩ := Prod.mk.inj (Except.ok.inj h)
      obtain ⟨rest₁', hvalue', hrest₁⟩ :=
        readValue_of_sameLexemes 0 (.cons hl hmore) hvalue
      obtain ⟨rest', hitems', hrest⟩ := readList_of_sameLexemes start' hrest₁ hitems
      rw [hl] at hclose hcomma
      refine ⟨rest', ?_, hrest⟩
      rw [readList_of_ne 0 hclose hcomma, hvalue']
      simp only [Except.ok_bind, hitems']
termination_by fuel => (fuel, 0)

/-- A value is read as the same value. -/
lemma readValue_of_sameLexemes {stop fuel : Nat} (stop' : Nat) {v : Value}
    {lexemes lexemes' rest : List Lexeme} (hsame : SameLexemes lexemes lexemes')
    (h : readValue stop fuel lexemes = .ok (v, rest)) :
    ∃ rest', readValue stop' fuel lexemes' = .ok (v, rest') ∧ SameLexemes rest rest' := by
  cases hsame with
  | nil => simp [readValue] at h
  | @cons l l' more more' hl hmore =>
    rw [readValue] at h
    split at h
    · rename_i hopen
      obtain ⟨⟨vs, rest₁⟩, hlist, h⟩ := Except.bind_eq_ok_iff.mp h
      obtain ⟨rfl, rfl⟩ := Prod.mk.inj (Except.ok.inj h)
      obtain ⟨rest', hread, hrest⟩ :=
        readList_of_sameLexemes l'.position hmore hlist
      exact ⟨rest', by simp [readValue, ← hl, hopen, hread], hrest⟩
    · rename_i hopen
      obtain ⟨v', hatom, h⟩ := Except.bind_eq_ok_iff.mp h
      obtain ⟨rfl, rfl⟩ := Prod.mk.inj (Except.ok.inj h)
      exact ⟨more', by simp [readValue, ← hl, hopen, readAtom_of_token_eq hl hatom], hmore⟩
termination_by (fuel, 1)

end

/-- A field is read as the same field. -/
lemma readField_of_sameLexemes (stop' : Nat) {f : Field} (hsame : SameLexemes lexemes lexemes')
    (h : readField stop fuel lexemes = .ok (f, rest)) :
    ∃ f' rest', readField stop' fuel lexemes' = .ok (f', rest') ∧ f'.unplaced = f.unplaced ∧
      SameLexemes rest rest' := by
  unfold readField at h
  split at h
  · obtain ⟨⟨v, rest₁⟩, hvalue, h⟩ := Except.bind_eq_ok_iff.mp h
    obtain ⟨rfl, rfl⟩ := Prod.mk.inj (Except.ok.inj h)
    obtain ⟨⟨position, t⟩, ls, hl, hls, rfl⟩ := List.forall₂_cons_left_iff.mp hsame
    obtain ⟨⟨position', t'⟩, ls', hl', hls', rfl⟩ := List.forall₂_cons_left_iff.mp hls
    obtain ⟨rest', hread, hrest⟩ := readValue_of_sameLexemes stop' hls' hvalue
    obtain rfl : _ = t := hl
    obtain rfl : _ = t' := hl'
    exact ⟨⟨_, _, position⟩, rest', by simp [readField, hread], rfl, hrest⟩
  · rename_i hkey
    obtain ⟨⟨v, rest₁⟩, hvalue, h⟩ := Except.bind_eq_ok_iff.mp h
    obtain ⟨rfl, rfl⟩ := Prod.mk.inj (Except.ok.inj h)
    obtain ⟨rest', hread, hrest⟩ := readValue_of_sameLexemes stop' hsame hvalue
    refine ⟨⟨none, v, nextPosition stop' lexemes'⟩, rest', ?_, rfl, hrest⟩
    unfold readField
    split
    · obtain ⟨⟨position, t⟩, ls, hl, hls, rfl⟩ := List.forall₂_cons_right_iff.mp hsame
      obtain ⟨⟨position', t'⟩, ls', hl', -, rfl⟩ := List.forall₂_cons_right_iff.mp hls
      obtain rfl : t = _ := hl
      obtain rfl : t' = _ := hl'
      exact absurd rfl (hkey _ _ _ _)
    · rw [hread]
      rfl

/-- A parenthesis and a head are read as the same ones. -/
lemma readOpening_of_sameLexemes (stop' : Nat) {opening : Opening}
    (hsame : SameLexemes lexemes lexemes')
    (h : readOpening stop depth lexemes = .ok (opening, rest)) :
    ∃ opening' rest', readOpening stop' depth lexemes' = .ok (opening', rest') ∧
      opening'.head = opening.head ∧ SameLexemes rest rest' := by
  have hdepth := depth_lt_of_readOpening h
  unfold readOpening at h
  split at h
  · rw [if_neg (by omega)] at h
    split at h
    · obtain ⟨rfl, rfl⟩ := Prod.mk.inj (Except.ok.inj h)
      obtain ⟨⟨position, t⟩, ls, hl, hls, rfl⟩ := List.forall₂_cons_left_iff.mp hsame
      obtain ⟨⟨position', t'⟩, ls', hl', hls', rfl⟩ := List.forall₂_cons_left_iff.mp hls
      obtain rfl : _ = t := hl
      obtain rfl : _ = t' := hl'
      refine ⟨⟨position, _⟩, ls', ?_, rfl, hls'⟩
      simp only [readOpening]
      rw [if_neg (by omega)]
    · cases h
  · cases h

/-- The fields and children of an expression are read as the same ones. -/
lemma readBody_of_sameLexemes (stop' : Nat) (opening' : Opening) {opening : Opening} {body : Body}
    (hsame : SameLexemes lexemes lexemes')
    (h : readBody stop fuel depth opening lexemes = .ok (body, rest)) :
    ∃ body' rest', readBody stop' fuel depth opening' lexemes' = .ok (body', rest') ∧
      body'.fields.map Field.unplaced = body.fields.map Field.unplaced ∧
      Expr.allUnplaced body'.children = Expr.allUnplaced body.children ∧
      SameLexemes rest rest' := by
  induction fuel generalizing depth opening opening' lexemes lexemes' body rest with
  | zero => simp [readBody] at h
  | succ fuel ih =>
    cases hsame with
    | nil => simp [readBody] at h
    | @cons l l' more more' hl hmore =>
      by_cases hclose : l.token = .closeParen
      · simp only [readBody, hclose, Except.ok.injEq, Prod.mk.injEq] at h
        obtain ⟨rfl, rfl⟩ := h
        exact ⟨⟨[], []⟩, more', by simp [readBody, ← hl, hclose], rfl, rfl, hmore⟩
      by_cases hopen : l.token = .openParen
      · rw [readBody] at h
        simp only [hopen] at h
        obtain ⟨⟨inner, rest₁⟩, hopening, h⟩ := Except.bind_eq_ok_iff.mp h
        obtain ⟨⟨body₁, rest₂⟩, hinner, h⟩ := Except.bind_eq_ok_iff.mp h
        obtain ⟨⟨others, rest₃⟩, hothers, h⟩ := Except.bind_eq_ok_iff.mp h
        obtain ⟨rfl, rfl⟩ := Prod.mk.inj (Except.ok.inj h)
        obtain ⟨inner', rest₁', hopening', hhead, hrest₁⟩ :=
          readOpening_of_sameLexemes stop' (.cons hl hmore) hopening
        obtain ⟨body₁', rest₂', hinner', hfields, hchildren, hrest₂⟩ :=
          ih inner' hrest₁ hinner
        obtain ⟨others', rest', hothers', hfields', hchildren', hrest⟩ :=
          ih opening' hrest₂ hothers
        refine ⟨⟨others'.fields, .expr ⟨inner'.head, inner'.position, body₁'.fields⟩
          body₁'.children :: others'.children⟩, rest', ?_, hfields', ?_, hrest⟩
        · rw [readBody]
          simp only [← hl, hopen, hopening', hinner', hothers', Except.ok_bind]
        · simp only [Expr.allUnplaced, Expr.unplaced, hhead, hfields, hchildren, hchildren']
      · rw [readBody_of_ne hopen hclose] at h
        obtain ⟨⟨f, rest₁⟩, hfield, h⟩ := Except.bind_eq_ok_iff.mp h
        obtain ⟨⟨others, rest₂⟩, hothers, h⟩ := Except.bind_eq_ok_iff.mp h
        obtain ⟨rfl, rfl⟩ := Prod.mk.inj (Except.ok.inj h)
        obtain ⟨f', rest₁', hfield', hf, hrest₁⟩ :=
          readField_of_sameLexemes stop' (.cons hl hmore) hfield
        obtain ⟨others', rest', hothers', hfields', hchildren', hrest⟩ :=
          ih opening' hrest₁ hothers
        rw [hl] at hopen hclose
        refine ⟨⟨f' :: others'.fields, others'.children⟩, rest', ?_,
          by simp only [List.map_cons, hf, hfields'], hchildren', hrest⟩
        rw [readBody_of_ne hopen hclose, hfield']
        simp only [Except.ok_bind, hothers']

/-- **Blanks and comments change nothing but places.** -/
theorem Expr.ofText_of_sameTokens {text text' : String} {e : Expr} (hsame : SameTokens text text')
    (h : Expr.ofText text = .ok e) :
    ∃ e', Expr.ofText text' = .ok e' ∧ e'.unplaced = e.unplaced := by
  obtain ⟨ts, hts, hts'⟩ := hsame
  have hlexemes : SameLexemes (scan 0 text.toList) (scan 0 text'.toList) := by
    have hmap : (start text).lexemes.map Lexeme.token = (start text').lexemes.map Lexeme.token :=
      hts.map_token.trans hts'.map_token.symm
    rw [← List.forall₂_eq_eq_eq, List.forall₂_map_left_iff, List.forall₂_map_right_iff] at hmap
    exact hmap
  obtain ⟨⟨opening, rest⟩, hopening, h⟩ := Except.bind_eq_ok_iff.mp h
  obtain ⟨⟨body, rest'⟩, hbody, h⟩ := Except.bind_eq_ok_iff.mp h
  cases rest' with
  | cons l more => simp at h
  | nil =>
    obtain rfl := Except.ok.inj h
    obtain ⟨opening', rest₁, hopening', hhead, hrest₁⟩ :=
      readOpening_of_sameLexemes (utf8Length text'.toList) hlexemes hopening
    obtain ⟨body', rest₂, hbody', hfields, hchildren, hrest₂⟩ :=
      readBody_of_sameLexemes (utf8Length text'.toList) opening' hrest₁ hbody
    cases hrest₂
    rw [hlexemes.length_eq] at hbody'
    refine ⟨.expr ⟨opening'.head, opening'.position, body'.fields⟩ body'.children, ?_, ?_⟩
    · simp only [Expr.ofText, Expr.ofTokens, hopening', hbody', Except.ok_bind]
    · simp only [Expr.unplaced, hhead, hfields, hchildren]

/-- **The reader accepts exactly its grammar.**  It reads a text as an expression if and only if the
text derives it, and a text with other blanks and comments as the same expression at other
places. -/
theorem Expr.ofText_eq_ok_iff (text : String) :
    (∀ e, Expr.ofText text = .ok e ↔ Derives text e) ∧
      ∀ text', SameTokens text text' → ∀ e, Expr.ofText text = .ok e →
        ∃ e', Expr.ofText text' = .ok e' ∧ e'.unplaced = e.unplaced :=
  ⟨fun _ => ⟨derives_of_ofText, ofText_of_derives⟩,
    fun _ hsame _ h => Expr.ofText_of_sameTokens hsame h⟩

/-- The tokens of an expression whose one field is a list. -/
def listed : List Token :=
  [.openParen, .word "a", .word "b", .equals, .openBracket, .number "1", .comma, .number "2",
    .closeBracket, .closeParen]

lemma lexed_of_listed (h : c.lexemes.map Lexeme.token = listed) : Lexed c listed :=
  .of_map_token h (by simp [listed, Token.IsStray])

/-- An expression, and what is read of it after blanks and a comment have been put in. -/
theorem Expr.ofText_of_spread :
    Derives "(a b=[1,2])" (.expr ⟨"a", 0, [⟨some "b", .list [.int 1, .int 2], 3⟩]⟩ []) ∧
      SameTokens "(a b=[1,2])" " ( a ; key\n b = [ 1, 2 ] ) ; end" ∧
        ∃ e', Expr.ofText " ( a ; key\n b = [ 1, 2 ] ) ; end" = .ok e' ∧
          e'.unplaced = .expr ⟨"a", 0, [⟨some "b", .list [.int 1, .int 2], 0⟩]⟩ [] := by
  have hread : Expr.ofText "(a b=[1,2])" =
      .ok (.expr ⟨"a", 0, [⟨some "b", .list [.int 1, .int 2], 3⟩]⟩ []) := by cbv
  have hsame : SameTokens "(a b=[1,2])" " ( a ; key\n b = [ 1, 2 ] ) ; end" :=
    ⟨listed, lexed_of_listed (by cbv), lexed_of_listed (by cbv)⟩
  obtain ⟨hderives, hspread⟩ := Expr.ofText_eq_ok_iff "(a b=[1,2])"
  exact ⟨(hderives _).mp hread, hsame, hspread _ hsame _ hread⟩

end TreeCode.Source
