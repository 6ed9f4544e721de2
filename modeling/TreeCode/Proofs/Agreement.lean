import TreeCode.Proofs.Bytewise

/-!
# The reader of bytes and the reader of tokens

Reading the bytes of a text comes to the same as reading its tokens (`Bytewise.read_eq`): no loop is
stuck, no character is split, and if there is room for the lists that are open at a time, the
outcome is the expression or the refusal of `Expr.ofText`.
-/

namespace TreeCode.Source

open Cursor

variable {text : String} {c c' c₁ c₂ : Cursor} {α β σ : Type}

/-! ## Moving on -/

/-- From one cursor to another there are fewer bytes and fewer tokens left. -/
structure Cursor.Before (c c' : Cursor) : Prop where
  position_lt : c.position < c'.position
  fewer : c'.lexemes.length < c.lexemes.length

lemma Cursor.Before.trans (h : c.Before c₁) (h' : c₁.Before c₂) : c.Before c₂ :=
  ⟨Nat.lt_trans h.position_lt h'.position_lt, Nat.lt_trans h'.fewer h.fewer⟩

lemma Trivia.position_le (h : Trivia c c') : c.position ≤ c'.position := by
  induction h with
  | nil => exact Nat.le_refl _
  | blank _ spans _ ih | comment _ spans _ ih =>
    exact Nat.le_trans (spans.position_eq ▸ Nat.le_add_right _ _) ih
  | lastComment _ spans => exact spans.position_eq ▸ Nat.le_add_right _ _

lemma Trivia.before (h : Trivia c c₁) (h' : c₁.Before c₂) : c.Before c₂ :=
  ⟨Nat.lt_of_le_of_lt h.position_le h'.position_lt, h.lexemes_eq ▸ h'.fewer⟩

lemma TokenAt.exists_spans {t : Token} (h : TokenAt c t c') :
    ∃ ch piece, c.Spans (ch :: piece) c' := by
  cases h with
  | word word =>
    obtain ⟨ch, run, hname, -⟩ := word.is_word
    exact ⟨ch, run, hname ▸ word.spans⟩
  | number run =>
    cases run with
    | run _ _ spans => exact ⟨_, _, spans⟩
  | text quoted => exact ⟨_, _, quoted.spans⟩
  | punctuation _ spans => exact ⟨_, _, spans⟩

lemma TokenAt.before {t : Token} (h : TokenAt c t c') : c.Before c' := by
  obtain ⟨ch, piece, hspans⟩ := h.exists_spans
  refine ⟨hspans.position_lt, ?_⟩
  rw [h.lexemes_eq]
  exact Nat.lt_succ_self _

lemma TokenAt.cursor_in {t : Token} (h : TokenAt c t c') (hin : c.In text) : c'.In text := by
  obtain ⟨ch, piece, hspans⟩ := h.exists_spans
  exact hspans.cursor_in hin

/-! ## What a cursor faces -/

/-- The first character of a word. -/
lemma Word.exists_start {name : String} {ch : Char} {rest : List Char} (h : Word c name c')
    (hrest : c.rest = ch :: rest) : ∃ run, name.toList = ch :: run ∧ isWordStart ch := by
  obtain ⟨ch', run, hname, hstart, -⟩ := h.is_word
  have hrest' := h.spans.rest_eq
  rw [hname, hrest] at hrest'
  obtain ⟨rfl, -⟩ := List.cons.inj hrest'
  exact ⟨run, hname, hstart⟩

/-- What is scanned at a cursor shows the byte there.  It is a mark of punctuation, or a word,
exactly where one is written. -/
structure Scans (c : Cursor) (ch : Char) (l : Lexeme) (lexemes : List Lexeme) : Prop where
  lexemes_eq : c.lexemes = l :: lexemes
  position_eq : l.position = c.position
  leading_eq : l.token.leading = leadingByte ch
  mark_iff : ∀ {mark : Char} {t : Token}, punctuation? mark = some t → (l.token = t ↔ ch = mark)
  word : isWordStart ch = true → ∃ name c', Word c name c'
  not_word : isWordStart ch = false → ∀ name, l.token ≠ .word name

lemma punctuation?_eq_none {ch : Char}
    (h : isWordStart ch = true ∨ isNumberStart ch = true ∨ ch = '"') : punctuation? ch = none := by
  cases hch : punctuation? ch with
  | none => rfl
  | some t =>
    obtain ⟨-, -, hword, hnumber, hquote, -⟩ := isOther_of_punctuation hch
    simp_all

/-- A token that is no mark of punctuation stands where none is written. -/
lemma mark_iff_of_ne {ch mark : Char} {t t' : Token} (hmark : punctuation? mark = some t)
    (ht : ∀ mark, punctuation? mark ≠ some t') (hch : punctuation? ch = none) :
    t' = t ↔ ch = mark := by
  constructor
  · rintro rfl
    exact absurd hmark (ht mark)
  · rintro rfl
    rw [hch] at hmark
    cases hmark

/-- No mark of punctuation is a token of another kind. -/
lemma punctuation?_ne {t : Token} (ht : (∃ name, t = .word name) ∨
    (∃ literal, t = .number literal) ∨ (∃ body, t = .text body) ∨ t.IsStray) (mark : Char) :
    punctuation? mark ≠ some t := by
  unfold punctuation?
  split <;> simp <;> rintro rfl <;> simp [Token.IsStray] at ht

/-- Where something begins, a token is scanned. -/
lemma Cursor.Ahead.exists_scans {ch : Char} {rest : List Char} (h : c.Ahead)
    (hrest : c.rest = ch :: rest) : ∃ l lexemes, Scans c ch l lexemes := by
  have hpart := partOf_leadingByte ch
  cases h with
  | nothing at_end => simp [at_end] at hrest
  | token token =>
    have hlexemes := token.lexemes_eq
    cases token with
    | word word =>
      obtain ⟨run, hname, hstart⟩ := word.exists_start hrest
      refine ⟨_, _, hlexemes, rfl, ?_, fun hmark => ?_, fun _ => ⟨_, _, word⟩, by simp [hstart]⟩
      · rw [hpart.eq_of_ascii (utf8Size_of_isWordChar (isWordChar_of_isWordStart hstart)),
          Token.leading, hname, List.headD_cons]
      · exact mark_iff_of_ne hmark (punctuation?_ne (.inl ⟨_, rfl⟩))
          (punctuation?_eq_none (.inl hstart))
    | number run =>
      cases run with
      | run rest_eq starts =>
        obtain ⟨rfl, rfl⟩ := List.cons.inj (hrest.symm.trans rest_eq)
        have hword := isWordStart_eq_false starts
        refine ⟨_, _, hlexemes, rfl, ?_, fun hmark => ?_, by simp [hword], by simp⟩
        · rw [hpart.eq_of_ascii (utf8Size_of_isNumberStart starts), Token.leading,
            String.toList_ofList, List.headD_cons]
        · exact mark_iff_of_ne hmark (punctuation?_ne (.inr (.inl ⟨_, rfl⟩)))
            (punctuation?_eq_none (.inr (.inl starts)))
    | text quoted =>
      obtain ⟨rfl, -⟩ := List.cons.inj (hrest.symm.trans quoted.spans.rest_eq)
      refine ⟨_, _, hlexemes, rfl, rfl, fun hmark => ?_, nofun, by simp⟩
      exact mark_iff_of_ne hmark (punctuation?_ne (.inr (.inr (.inl ⟨_, rfl⟩)))) rfl
    | punctuation char spans =>
      obtain ⟨rfl, -⟩ := List.cons.inj (hrest.symm.trans spans.rest_eq)
      obtain ⟨-, -, hword, -, -, -⟩ := isOther_of_punctuation char
      refine ⟨_, _, hlexemes, rfl, ?_, fun hmark => ⟨?_, ?_⟩, by simp [hword], fun _ name => ?_⟩
      · unfold punctuation? at char
        split at char <;> cases char <;> rfl
      · rintro rfl
        exact punctuation?_inj char hmark
      · rintro rfl
        exact Option.some.inj (char.symm.trans hmark)
      · rintro rfl
        exact punctuation?_ne (.inl ⟨name, rfl⟩) _ char
  | openText rest_eq no_quote =>
    obtain ⟨rfl, rfl⟩ := List.cons.inj (hrest.symm.trans rest_eq)
    refine ⟨_, _, lexemes_of_openText rest_eq no_quote, rfl, rfl, fun hmark => ?_, nofun, by simp⟩
    exact mark_iff_of_ne hmark (punctuation?_ne (.inr (.inr (.inr (.inl rfl))))) rfl
  | other rest_eq blank comment word number quote punctuation =>
    obtain ⟨rfl, rfl⟩ := List.cons.inj (hrest.symm.trans rest_eq)
    refine ⟨_, _, lexemes_of_other rest_eq blank comment word number quote punctuation, rfl, rfl,
      fun hmark => ?_, by simp [word], by simp⟩
    exact mark_iff_of_ne hmark (punctuation?_ne (.inr (.inr (.inr (.inr ⟨_, rfl⟩))))) punctuation

/-- From one cursor to another there are blanks and comments, which are skipped. -/
structure Skips (text : String) (c c' : Cursor) : Prop where
  trivia : Trivia c c'
  cursor_in : c'.In text
  ahead : c'.Ahead
  skip_eq : Bytewise.skipTrivia text c.position = .ok c'.position
  skip_again : Bytewise.skipTrivia text c'.position = .ok c'.position

lemma exists_skips (hin : c.In text) : ∃ c', Skips text c c' := by
  obtain ⟨c', htrivia, hstop⟩ := c.exists_trivia
  have hin' := htrivia.cursor_in hin
  exact ⟨c', htrivia, hin', Cursor.ahead hstop, Bytewise.skipTrivia_eq htrivia hin hstop,
    Bytewise.skipTrivia_eq (.nil c') hin' hstop⟩

/-- At a cursor the text ends, or the byte there is that of a token. -/
inductive Faces (text : String) (c : Cursor) : Prop
  | nothing (peek_eq : Bytewise.peek text c.position = none) (lexemes_eq : c.lexemes = [])
      (position_eq : c.position = text.utf8ByteSize)
  | lexeme {ch : Char} {rest : List Char} {l : Lexeme} {lexemes : List Lexeme}
      (rest_eq : c.rest = ch :: rest)
      (peek_eq : Bytewise.peek text c.position = some (leadingByte ch))
      (scans : Scans c ch l lexemes)

lemma Cursor.Ahead.faces (h : c.Ahead) (hin : c.In text) : Faces text c := by
  cases hrest : c.rest with
  | nil =>
    refine .nothing ?_ ?_ (hin.position_eq_iff.mpr hrest)
    · rw [hin.peek_eq, hrest]
      rfl
    · rw [lexemes, hrest, scan]
  | cons ch rest =>
    obtain ⟨l, lexemes, hscans⟩ := h.exists_scans hrest
    refine .lexeme hrest ?_ hscans
    rw [hin.peek_eq, hrest]
    rfl

/-- Whether the byte at a cursor is a mark, its token tells. -/
lemma Scans.byte_eq_iff {ch : Char} {l : Lexeme} {lexemes : List Lexeme} {t : Token}
    (h : Scans c ch l lexemes) (mark : Char) (hmark : punctuation? mark = some t) :
    leadingByte ch = mark ↔ l.token = t := by
  rw [h.mark_iff hmark]
  exact (partOf_leadingByte ch).eq_iff (isOther_of_punctuation hmark).2.2.2.2.2

/-- Behind a mark. -/
lemma Scans.exists_behind {ch : Char} {l : Lexeme} {rest : List Char} {lexemes : List Lexeme}
    {t : Token} (h : Scans c ch l lexemes) (mark : Char) (hin : c.In text)
    (hrest : c.rest = ch :: rest) (hmark : punctuation? mark = some t) (ht : l.token = t) :
    ∃ c', c'.In text ∧ c.Before c' ∧ c'.position = c.position + 1 ∧ lexemes = c'.lexemes := by
  obtain rfl := (h.mark_iff hmark).mp ht
  have hspans := spans_after [ch] rest hrest
  have htoken : TokenAt c t (c.after [ch] rest) := .punctuation hmark hspans
  exact ⟨_, htoken.cursor_in hin, htoken.before,
    hspans.position_eq_succ (isOther_of_punctuation hmark).2.2.2.2.2,
    (List.cons.inj (h.lexemes_eq.symm.trans htoken.lexemes_eq)).2⟩

/-! ## Agreement -/

/-- From a cursor on, bytes and tokens are read as the same, up to a cursor behind it, or they are
refused alike. -/
inductive Agrees (text : String) (c : Cursor) :
    Except Failure (α × Nat) → Except ParseError (α × List Lexeme) → Prop
  | read {c' : Cursor} (cursor_in : c'.In text) (before : c.Before c') (a : α) :
      Agrees text c (.ok (a, c'.position)) (.ok (a, c'.lexemes))
  | refused (error : ParseError) : Agrees text c (.error (.refused error)) (.error error)

namespace Agrees

variable {x : Except Failure (α × Nat)} {y : Except ParseError (α × List Lexeme)}

lemma refuse (position : Nat) (defect : Defect) :
    Agrees (α := α) text c (Bytewise.refuse position defect)
      (.error (.malformed position defect)) := .refused _

lemma of_trivia (htrivia : Trivia c c₁) (h : Agrees text c₁ x y) : Agrees text c x y := by
  cases h with
  | read cursor_in before a => exact .read cursor_in (htrivia.before before) a
  | refused error => exact .refused error

lemma of_before (hbefore : c.Before c₁) (h : Agrees text c₁ x y) : Agrees text c x y := by
  cases h with
  | read cursor_in before a => exact .read cursor_in (hbefore.trans before) a
  | refused error => exact .refused error

/-- What is read first is read alike, and then what is behind it. -/
lemma bind {f : α × Nat → Except Failure (β × Nat)}
    {g : α × List Lexeme → Except ParseError (β × List Lexeme)} (h : Agrees text c x y)
    (hmore : ∀ a c', c'.In text → c.Before c' → y = .ok (a, c'.lexemes) →
      Agrees text c' (f (a, c'.position)) (g (a, c'.lexemes))) :
    Agrees text c (x >>= f) (y >>= g) := by
  cases h with
  | read cursor_in before a => exact (hmore a _ cursor_in before rfl).of_before before
  | refused error => exact .refused error

/-- The result is another one on both sides. -/
lemma map {b : α → β} (h : Agrees text c x y) :
    Agrees text c (x >>= fun r => .ok (b r.1, r.2)) (y >>= fun r => .ok (b r.1, r.2)) := by
  cases h with
  | read cursor_in before a => exact .read cursor_in before (b a)
  | refused error => exact .refused error

/-- A turn that reads something and goes on. -/
lemma loop {turn : σ → Nat → Except Failure (Turn σ β)} {s : σ} {position : Nat}
    {g : α × List Lexeme → Except ParseError (β × List Lexeme)} (h : Agrees text c x y)
    (next : α → σ) (hturn : turn s position = x >>= fun r => .ok (.again (next r.1) r.2))
    (hle : position ≤ c.position)
    (hmore : ∀ a c', c'.In text → c.Before c' → y = .ok (a, c'.lexemes) →
      Agrees text c' (Bytewise.loop text turn (next a) c'.position) (g (a, c'.lexemes))) :
    Agrees text c (Bytewise.loop text turn s position) (y >>= g) := by
  cases h with
  | read cursor_in before a =>
    rw [Bytewise.loop_of_again hturn (Nat.lt_of_le_of_lt hle before.position_lt)
      cursor_in.position_le]
    exact (hmore a _ cursor_in before rfl).of_before before
  | refused error =>
    rw [Bytewise.loop_of_error hturn]
    exact .refused error

end Agrees

/-! ## Values -/

lemma ne_of_class {p : Char → Bool} {a b : Char} (ha : p a = true) (hb : p b = false) : a ≠ b := by
  rintro rfl
  rw [hb] at ha
  cases ha

/-- A byte that begins no value is refused. -/
lemma Bytewise.readAtom_of_ne {byte : Char} {position : Nat} (hquote : byte ≠ '"')
    (hnumber : isNumberStart byte = false) (hword : isWordStart byte = false) :
    Bytewise.readAtom text byte position =
      Bytewise.refuse position (.expectedValue (some byte)) := by
  rw [Bytewise.readAtom, if_neg hquote, if_neg (by simp [hnumber]), if_neg (by simp [hword])]

/-- A token of the grammar that is no list is read as a value, or it is refused. -/
lemma TokenAt.agrees_readAtom {t : Token} {ch : Char} {rest : List Char} (h : TokenAt c t c')
    (hin : c.In text) (hrest : c.rest = ch :: rest) (hopen : ch ≠ '[') :
    Agrees text c (Bytewise.readAtom text (leadingByte ch) c.position)
      (readAtom ⟨c.position, t⟩ >>= fun v => .ok (v, c'.lexemes)) := by
  have hpart := partOf_leadingByte ch
  have hin' := h.cursor_in hin
  have hbefore := h.before
  cases h with
  | word word =>
    obtain ⟨run, hname, hstart⟩ := word.exists_start hrest
    have hnumber : isNumberStart ch = false := by
      rw [Bool.eq_false_iff]
      intro hnumber
      rw [isWordStart_eq_false hnumber] at hstart
      cases hstart
    rw [Bytewise.readAtom,
      hpart.eq_of_ascii (utf8Size_of_isWordChar (isWordChar_of_isWordStart hstart)),
      if_neg (ne_of_class hstart rfl), if_neg (by simp [hnumber]), if_pos hstart,
      Bytewise.readWord_eq hin word]
    exact .read hin' hbefore _
  | number run =>
    have hread := Bytewise.readNumber_eq hin run
    cases run with
    | run rest_eq starts spans =>
      obtain ⟨rfl, rfl⟩ := List.cons.inj (hrest.symm.trans rest_eq)
      rw [Bytewise.readAtom, hpart.eq_of_ascii (utf8Size_of_isNumberStart starts),
        if_neg (ne_of_class starts rfl), if_pos starts, hread]
      simp only [readAtom, String.toList_ofList]
      cases literalValue? (ch :: numberRun ch rest) with
      | none => exact .refuse _ _
      | some v => exact .read hin' hbefore v
  | text quoted =>
    obtain ⟨rfl, -⟩ := List.cons.inj (hrest.symm.trans quoted.spans.rest_eq)
    rw [Bytewise.readAtom, hpart.eq_of_ascii rfl, if_pos rfl, Bytewise.loop_textTurn hin quoted]
    exact .read hin' hbefore _
  | punctuation char spans =>
    obtain ⟨rfl, -⟩ := List.cons.inj (hrest.symm.trans spans.rest_eq)
    obtain ⟨-, -, hword, hnumber, hquote, hsize⟩ := isOther_of_punctuation char
    rw [hpart.eq_of_ascii hsize, Bytewise.readAtom_of_ne (by simpa using hquote) hnumber hword]
    unfold punctuation? at char
    split at char
    all_goals first
      | contradiction
      | (obtain rfl := Option.some.inj char
         exact .refuse _ _)

/-- A value that is no list is read. -/
lemma agrees_readAtom {ch : Char} {rest : List Char} {l : Lexeme} {lexemes : List Lexeme}
    (hin : c.In text) (hahead : c.Ahead) (hrest : c.rest = ch :: rest)
    (hlexemes : c.lexemes = l :: lexemes) (hopen : ch ≠ '[') :
    Agrees text c (Bytewise.readAtom text (leadingByte ch) c.position)
      (readAtom l >>= fun v => .ok (v, lexemes)) := by
  have hpart := partOf_leadingByte ch
  cases hahead with
  | nothing at_end => simp [at_end] at hrest
  | token token =>
    obtain ⟨rfl, rfl⟩ := List.cons.inj (hlexemes.symm.trans token.lexemes_eq)
    exact token.agrees_readAtom hin hrest hopen
  | openText rest_eq no_quote =>
    obtain ⟨rfl, rfl⟩ := List.cons.inj (hrest.symm.trans rest_eq)
    obtain ⟨rfl, -⟩ := List.cons.inj
      (hlexemes.symm.trans (lexemes_of_openText rest_eq no_quote))
    rw [Bytewise.readAtom, hpart.eq_of_ascii rfl, if_pos rfl,
      Bytewise.loop_textTurn_of_openText hin rest_eq no_quote]
    exact .refuse _ _
  | other rest_eq blank comment word number quote punctuation =>
    obtain ⟨rfl, rfl⟩ := List.cons.inj (hrest.symm.trans rest_eq)
    obtain ⟨rfl, -⟩ := List.cons.inj (hlexemes.symm.trans
      (lexemes_of_other rest_eq blank comment word number quote punctuation))
    have hnumber := (hpart.class_eq fun _ => utf8Size_of_isNumberStart).trans number
    have hword := (hpart.class_eq fun _ hch =>
      utf8Size_of_isWordChar (isWordChar_of_isWordStart hch)).trans word
    rw [Bytewise.readAtom_of_ne (mt (hpart.eq_iff rfl).mp quote) hnumber hword]
    exact .refuse _ _

variable {fuel : Nat}

/-- Values are read alike if lists are. -/
lemma agrees_readValueWith {list : Nat → Except Failure (Value × Nat)} (hin : c.In text)
    (hlist : ∀ {c₁ c₂ : Cursor}, c₂.In text → c₁.Before c₂ → c₂.position = c₁.position + 1 →
      c.lexemes = ⟨c₁.position, .openBracket⟩ :: c₂.lexemes →
      Agrees text c₁ (list c₁.position)
        (readList c₁.position fuel true c₂.lexemes >>= fun r => .ok (.list r.1, r.2))) :
    Agrees text c (Bytewise.readValueWith text list c.position)
      (readValue text.utf8ByteSize fuel c.lexemes) := by
  obtain ⟨c₁, htrivia, hin₁, hahead, hskip, -⟩ := exists_skips hin
  refine .of_trivia htrivia ?_
  rw [Bytewise.readValueWith, hskip, Except.ok_bind, htrivia.lexemes_eq]
  rw [htrivia.lexemes_eq] at hlist
  cases hahead.faces hin₁ with
  | nothing peek_eq lexemes_eq position_eq =>
    rw [peek_eq, lexemes_eq, position_eq]
    exact .refuse _ _
  | lexeme rest_eq peek_eq scans =>
    rename_i ch rest l lexemes
    have hopen := scans.byte_eq_iff '[' rfl
    rw [peek_eq, scans.lexemes_eq, readValue]
    dsimp only
    split
    · rename_i hbyte
      have htoken := hopen.mp hbyte
      obtain ⟨c₂, hin₂, hbefore, hposition, rfl⟩ :=
        scans.exists_behind '[' hin₁ rest_eq rfl htoken
      rw [if_pos htoken, scans.position_eq]
      refine hlist hin₂ hbefore hposition ?_
      rw [scans.lexemes_eq, ← htoken, ← scans.position_eq]
    · rename_i hbyte
      have htoken := mt hopen.mpr hbyte
      rw [if_neg htoken]
      exact agrees_readAtom hin₁ hahead rest_eq scans.lexemes_eq
        fun hch => htoken ((scans.mark_iff rfl).mpr hch)

/-- Lists are read alike with so much fuel. -/
def ListsAgree (text : String) (fuel : Nat) : Prop :=
  ∀ (room opened start : Nat) (items : List Value) ⦃c : Cursor⦄, c.In text →
    c.lexemes.length ≤ fuel → bracketDepth opened c.lexemes ≤ room + opened →
    Agrees text c
      (Bytewise.loop text (Bytewise.itemTurn text (Bytewise.readValue text room) start) items
        c.position)
      (readList start fuel items.isEmpty c.lexemes >>= fun r => .ok (.list (items ++ r.1), r.2))

/-- Values are read alike if there is room for the lists in them. -/
lemma ListsAgree.readValue {room opened : Nat} (h : ListsAgree text fuel) (hin : c.In text)
    (hfuel : c.lexemes.length ≤ fuel + 1) (hroom : bracketDepth opened c.lexemes ≤ room + opened) :
    Agrees text c (Bytewise.readValue text room c.position)
      (readValue text.utf8ByteSize fuel c.lexemes) := by
  cases room with
  | zero =>
    -- the bracket of a list would be one more than there is room for
    refine agrees_readValueWith hin fun {c₁ c₂} _ _ _ hlexemes => ?_
    simp only [hlexemes, bracketDepth] at hroom
    have hle := le_bracketDepth (opened + 1) c₂.lexemes
    omega
  | succ room =>
    refine agrees_readValueWith hin fun {c₁ c₂} hin₂ hbefore hposition hlexemes => ?_
    simp only [hlexemes, bracketDepth] at hroom
    rw [hlexemes, List.length_cons] at hfuel
    have hlist := h room (opened + 1) c₁.position [] hin₂ (by omega) (by omega)
    rw [hposition] at hlist
    exact hlist.of_before hbefore

/-- A list goes on with a value where neither its bracket nor a comma behind another one stands. -/
lemma readList_eq_bind {start : Nat} {first : Bool} {l : Lexeme} {lexemes : List Lexeme}
    (stop : Nat) (hclose : l.token ≠ .closeBracket) (hcomma : ¬(l.token = .comma ∧ first = false)) :
    readList start (fuel + 1) first (l :: lexemes) = (do
      let (value, rest) ← readValue stop fuel (l :: lexemes)
      let (values, rest) ← readList start fuel false rest
      .ok (value :: values, rest)) := by
  by_cases h : l.token = .comma
  · obtain rfl : first = true := by simpa [h] using hcomma
    simp [readList, readValue, readAtom, h, Token.leading]
  · exact readList_of_ne stop hclose h

/-- A turn of a list does what the token says that comes next. -/
lemma itemTurn_eq (value : Nat → Except Failure (Value × Nat)) (start : Nat) (items : List Value)
    {ch : Char} {l : Lexeme} {lexemes : List Lexeme} (hskips : Skips text c c₁)
    (hpeek : Bytewise.peek text c₁.position = some (leadingByte ch))
    (hscans : Scans c₁ ch l lexemes) :
    Bytewise.itemTurn text value start items c.position =
      if l.token = .closeBracket then .ok (.exit (.list items) (c₁.position + 1))
      else if l.token = .comma ∧ items.isEmpty = false then .ok (.again items (c₁.position + 1))
      else value c₁.position >>= fun r => .ok (.again (items ++ [r.1]) r.2) := by
  rw [Bytewise.itemTurn, hskips.skip_eq, Except.ok_bind, hpeek]
  simp only [hscans.byte_eq_iff ']' rfl, hscans.byte_eq_iff ',' rfl, ← List.isEmpty_eq_false_iff]

/-- A list that does not end is refused by both readers. -/
lemma agrees_itemTurn_of_nil {room start : Nat} {first : Bool} {items : List Value}
    {g : List Value × List Lexeme → Except ParseError (Value × List Lexeme)} (hin : c.In text)
    (h : c.lexemes = []) :
    Agrees text c
      (Bytewise.loop text (Bytewise.itemTurn text (Bytewise.readValue text room) start) items
        c.position)
      (readList start fuel first c.lexemes >>= g) := by
  obtain ⟨c₁, htrivia, hin₁, hahead, hskip, -⟩ := exists_skips hin
  have hread : readList start fuel first [] = .error (.malformed start .unterminatedList) := by
    cases fuel <;> rfl
  cases hahead.faces hin₁ with
  | nothing peek_eq =>
    have hturn : Bytewise.itemTurn text (Bytewise.readValue text room) start items c.position =
        .error (.refused (.malformed start .unterminatedList)) := by
      rw [Bytewise.itemTurn, hskip, Except.ok_bind, peek_eq]
      rfl
    rw [h, hread, Bytewise.loop_of_error hturn]
    exact .refuse _ _
  | lexeme rest_eq peek_eq scans =>
    have hlexemes := scans.lexemes_eq
    rw [← htrivia.lexemes_eq, h] at hlexemes
    cases hlexemes

/-- Lists are read alike. -/
lemma listsAgree (text : String) (fuel : Nat) : ListsAgree text fuel := by
  -- each turn takes a token, and a list within the list is read with what is left of the fuel
  induction fuel with
  | zero =>
    intro room opened start items c hin hfuel _
    exact agrees_itemTurn_of_nil hin (List.eq_nil_of_length_eq_zero (Nat.le_zero.mp hfuel))
  | succ fuel ih =>
    intro room opened start items c hin hfuel hroom
    obtain ⟨c₁, hskips⟩ := exists_skips hin
    have hin₁ := hskips.cursor_in
    have hlexemes := hskips.trivia.lexemes_eq
    have hle := hskips.trivia.position_le
    cases hskips.ahead.faces hin₁ with
    | nothing peek_eq lexemes_eq => exact agrees_itemTurn_of_nil hin (hlexemes.trans lexemes_eq)
    | @lexeme ch rest l lexemes rest_eq peek_eq scans =>
      have hturn :=
        itemTurn_eq (Bytewise.readValue text room) start items hskips peek_eq scans
      refine .of_trivia hskips.trivia ?_
      rw [hlexemes, scans.lexemes_eq] at hfuel hroom ⊢
      rw [List.length_cons] at hfuel
      by_cases hclose : l.token = .closeBracket
      · obtain ⟨c₂, hin₂, hbefore, hposition, rfl⟩ :=
          scans.exists_behind ']' hin₁ rest_eq rfl hclose
        rw [if_pos hclose, ← hposition] at hturn
        rw [Bytewise.loop_of_exit hturn]
        simp only [readList, hclose, Except.ok_bind, List.append_nil]
        exact .read hin₂ hbefore _
      rw [if_neg hclose] at hturn
      by_cases hcomma : l.token = .comma ∧ items.isEmpty = false
      · obtain ⟨c₂, hin₂, hbefore, hposition, rfl⟩ :=
          scans.exists_behind ',' hin₁ rest_eq rfl hcomma.1
        rw [if_pos hcomma, ← hposition] at hturn
        rw [Bytewise.loop_of_again hturn (Nat.lt_of_le_of_lt hle hbefore.position_lt)
          hin₂.position_le]
        rw [bracketDepth_cons (by simp [hcomma.1]) (by simp [hcomma.1])] at hroom
        have hmore := ih room opened start items hin₂ (by omega) hroom
        rw [hcomma.2] at hmore
        simp only [readList, hcomma.1, hcomma.2]
        exact hmore.of_before hbefore
      · have hvalue := ih.readValue hin₁ (by rw [scans.lexemes_eq, List.length_cons]; exact hfuel)
          (scans.lexemes_eq ▸ hroom)
        rw [scans.lexemes_eq] at hvalue
        rw [if_neg hcomma] at hturn
        rw [readList_eq_bind text.utf8ByteSize hclose hcomma, bind_assoc]
        refine hvalue.loop (fun v => items ++ [v]) hturn hle fun v c₂ hin₂ hbefore hv => ?_
        have hless := hbefore.fewer
        rw [scans.lexemes_eq, List.length_cons] at hless
        have hdepth := bracketDepth_of_readValue opened hv
        have hmore := ih room opened start (items ++ [v]) hin₂ (by omega)
          (Nat.le_trans hdepth hroom)
        have hitems : (items ++ [v]).isEmpty = false := by cases items <;> rfl
        simpa [hitems] using hmore

/-- Values are read alike. -/
lemma agrees_readValue {room opened : Nat} (hin : c.In text) (hfuel : c.lexemes.length ≤ fuel + 1)
    (hroom : bracketDepth opened c.lexemes ≤ room + opened) :
    Agrees text c (Bytewise.readValue text room c.position)
      (readValue text.utf8ByteSize fuel c.lexemes) :=
  (listsAgree text fuel).readValue hin hfuel hroom

/-! ## Fields -/

/-- A field without a key is a value. -/
lemma readField_of_ne {stop : Nat} {l : Lexeme} {lexemes : List Lexeme}
    (h : ∀ name, l.token ≠ .word name) :
    readField stop fuel (l :: lexemes) =
      readValue stop fuel (l :: lexemes) >>= fun r => .ok (⟨none, r.1, l.position⟩, r.2) := by
  unfold readField
  split
  · rename_i heq
    obtain ⟨rfl, -⟩ := List.cons.inj heq
    exact absurd rfl (h _)
  · rfl

/-- A word without an equals sign behind it is a value. -/
lemma readField_of_word {stop position : Nat} {name : String} {lexemes : List Lexeme}
    (h : ∀ l ∈ lexemes.head?, l.token ≠ .equals) :
    readField stop fuel (⟨position, .word name⟩ :: lexemes) =
      .ok (⟨none, .ident name, position⟩, lexemes) := by
  unfold readField
  split
  · rename_i heq
    obtain ⟨-, rfl⟩ := List.cons.inj heq
    exact absurd rfl (h _ rfl)
  · rfl

/-- A word is a field without a value, or the key of one. -/
lemma agrees_readField_of_word {room opened : Nat} {name : String} (hin : c.In text)
    (hname : Word c name c₁) (hfuel : c.lexemes.length ≤ fuel + 1)
    (hroom : bracketDepth opened c.lexemes ≤ room + opened) :
    Agrees text c
      (Bytewise.skipTrivia text c₁.position >>= fun next =>
        if Bytewise.peek text next = some '=' then
          Bytewise.readValue text room (next + 1) >>= fun r =>
            .ok (⟨some name, r.1, c.position⟩, r.2)
        else .ok (⟨none, .ident name, c.position⟩, next))
      (readField text.utf8ByteSize fuel c.lexemes) := by
  obtain ⟨c₂, htrivia, hin₂, hahead, hskip, -⟩ := exists_skips (hname.spans.cursor_in hin)
  have hbefore := (TokenAt.word hname).before
  rw [hskip, Except.ok_bind]
  rw [hname.lexemes_eq, htrivia.lexemes_eq] at hfuel hroom ⊢
  rw [List.length_cons] at hfuel
  rw [bracketDepth_cons (by simp) (by simp)] at hroom
  have hbare (hne : ∀ l ∈ c₂.lexemes.head?, l.token ≠ .equals) :
      Agrees text c (.ok (⟨none, .ident name, c.position⟩, c₂.position))
        (readField text.utf8ByteSize fuel (⟨c.position, .word name⟩ :: c₂.lexemes)) := by
    rw [readField_of_word hne]
    refine .read hin₂ ⟨Nat.lt_of_lt_of_le hbefore.position_lt htrivia.position_le, ?_⟩ _
    rw [← htrivia.lexemes_eq]
    exact hbefore.fewer
  cases hahead.faces hin₂ with
  | nothing peek_eq lexemes_eq =>
    rw [peek_eq, if_neg (by simp)]
    exact hbare (by simp [lexemes_eq])
  | @lexeme ch rest l lexemes rest_eq peek_eq scans =>
    have hequals := scans.byte_eq_iff '=' rfl
    rw [peek_eq]
    split
    · rename_i hbyte
      have htoken := hequals.mp (Option.some.inj hbyte)
      obtain ⟨c₃, hin₃, hbefore₃, hposition, rfl⟩ :=
        scans.exists_behind '=' hin₂ rest_eq rfl htoken
      obtain ⟨place, t⟩ := l
      obtain rfl : t = .equals := htoken
      rw [scans.lexemes_eq] at hfuel hroom ⊢
      rw [List.length_cons] at hfuel
      rw [bracketDepth_cons (by simp) (by simp)] at hroom
      have hvalue : Agrees text c₃ (Bytewise.readValue text room c₃.position)
          (readValue text.utf8ByteSize fuel c₃.lexemes) :=
        agrees_readValue hin₃ (by omega) hroom
      rw [hposition] at hvalue
      exact (hvalue.map (b := fun v => Field.mk (some name) v c.position)).of_before
        (hbefore.trans (htrivia.before hbefore₃))
    · rename_i hbyte
      refine hbare fun l hl => ?_
      rw [scans.lexemes_eq] at hl
      obtain rfl := Option.some.inj hl
      exact fun htoken => hbyte (congrArg some (hequals.mpr htoken))

/-- Fields are read alike. -/
lemma agrees_readField (room opened : Nat) {ch : Char} {rest : List Char} (hin : c.In text)
    (hahead : c.Ahead) (hrest : c.rest = ch :: rest) (hfuel : c.lexemes.length ≤ fuel + 1)
    (hroom : bracketDepth opened c.lexemes ≤ room + opened) :
    Agrees text c (Bytewise.readField text room c.position)
      (readField text.utf8ByteSize fuel c.lexemes) := by
  obtain ⟨l, lexemes, hscans⟩ := hahead.exists_scans hrest
  have hword : (Bytewise.peek text c.position).any isWordStart = isWordStart ch := by
    rw [Bytewise.any_peek_eq hin fun _ hch =>
      utf8Size_of_isWordChar (isWordChar_of_isWordStart hch), hrest]
    rfl
  rw [Bytewise.readField, hword]
  split
  · rename_i hstart
    obtain ⟨name, c₁, hname⟩ := hscans.word hstart
    rw [Bytewise.readWord_eq hin hname]
    exact agrees_readField_of_word hin hname hfuel hroom
  · rename_i hstart
    have hvalue := agrees_readValue hin hfuel hroom
    rw [hscans.lexemes_eq] at hvalue ⊢
    rw [readField_of_ne (hscans.not_word (by simpa using hstart)), hscans.position_eq]
    exact hvalue.map (b := fun v => Field.mk none v c.position)

/-! ## Expressions -/

/-- An expression below `depth` open parentheses, read from its tokens. -/
def readTree (stop fuel depth : Nat) (tokens : List Lexeme) :
    Except ParseError (Expr × List Lexeme) := do
  let (opening, rest) ← readOpening stop depth tokens
  let (body, rest) ← readBody stop fuel (depth + 1) opening rest
  .ok (.expr ⟨opening.head, opening.position, body.fields⟩ body.children, rest)

lemma readBody_of_openParen {stop depth : Nat} {opening : Opening} {l : Lexeme}
    {lexemes : List Lexeme} (h : l.token = .openParen) :
    readBody stop (fuel + 1) depth opening (l :: lexemes) =
      readTree stop fuel depth (l :: lexemes) >>= fun r =>
        readBody stop fuel depth opening r.2 >>= fun others =>
          .ok (⟨others.1.fields, r.1 :: others.1.children⟩, others.2) := by
  simp only [readBody, readTree, h, bind_assoc, Except.ok_bind]

lemma bracketDepth_of_readTree {stop depth : Nat} {tokens rest : List Lexeme} {e : Expr}
    (opened : Nat) (h : readTree stop fuel depth tokens = .ok (e, rest)) :
    bracketDepth opened rest ≤ bracketDepth opened tokens := by
  obtain ⟨⟨opening, middle⟩, hopening, h⟩ := Except.bind_eq_ok_iff.mp h
  obtain ⟨⟨body, rest'⟩, hbody, h⟩ := Except.bind_eq_ok_iff.mp h
  obtain ⟨-, rfl⟩ := Prod.mk.inj (Except.ok.inj h)
  rw [← bracketDepth_of_readOpening hopening]
  exact bracketDepth_of_readBody opened hbody

/-- Bodies are read alike with so much fuel. -/
def BodiesAgree (text : String) (room fuel : Nat) : Prop :=
  ∀ ⦃levels depth : Nat⦄ (opening : Opening) (body : Body) ⦃c : Cursor⦄,
    depth + levels = maxDepth → c.In text → c.lexemes.length ≤ fuel →
      bracketDepth 0 c.lexemes ≤ room →
      Agrees text c
        (Bytewise.loop text
          (Bytewise.bodyTurn text room (Bytewise.readExpr text room levels) opening) body
          c.position)
        (readBody text.utf8ByteSize fuel depth opening c.lexemes >>= fun r =>
          .ok (.expr ⟨opening.head, opening.position, body.fields ++ r.1.fields⟩
            (body.children ++ r.1.children), r.2))

/-- The head of an expression, read from its tokens. -/
def readHead (stop : Nat) : List Lexeme → Except ParseError (String × List Lexeme)
  | ⟨_, .word head⟩ :: rest => .ok (head, rest)
  | rest => .error (.malformed (nextPosition stop rest) (.expectedName (nextChar rest)))

lemma readHead_of_ne {stop : Nat} {l : Lexeme} {lexemes : List Lexeme}
    (h : ∀ name, l.token ≠ .word name) :
    readHead stop (l :: lexemes) =
      .error (.malformed l.position (.expectedName (some l.token.leading))) := by
  unfold readHead
  split
  · rename_i heq
    obtain ⟨rfl, -⟩ := List.cons.inj heq
    exact absurd rfl (h _)
  · rfl

lemma bracketDepth_of_readHead {stop : Nat} {tokens rest : List Lexeme} {head : String}
    (opened : Nat) (h : readHead stop tokens = .ok (head, rest)) :
    bracketDepth opened rest = bracketDepth opened tokens := by
  unfold readHead at h
  split at h
  · obtain ⟨rfl, rfl⟩ := Prod.mk.inj (Except.ok.inj h)
    exact (bracketDepth_cons (by simp) (by simp)).symm
  · cases h

lemma readOpening_eq_bind {stop depth : Nat} {l : Lexeme} {lexemes : List Lexeme}
    (h : l.token = .openParen) :
    readOpening stop depth (l :: lexemes) =
      if maxDepth ≤ depth then .error (.malformed l.position .nestingTooDeep)
      else readHead stop lexemes >>= fun r => .ok (⟨l.position, r.1⟩, r.2) := by
  obtain ⟨position, t⟩ := l
  obtain rfl : t = .openParen := h
  unfold readOpening
  dsimp only
  split
  · rfl
  · match lexemes with
    | [] => rfl
    | ⟨_, t⟩ :: rest => cases t <;> rfl

lemma readOpening_of_ne {stop depth : Nat} {l : Lexeme} {lexemes : List Lexeme}
    (h : l.token ≠ .openParen) :
    readOpening stop depth (l :: lexemes) =
      .error (.malformed l.position (.expectedOpen (some l.token.leading))) := by
  unfold readOpening
  split
  · rename_i heq
    obtain ⟨rfl, -⟩ := List.cons.inj heq
    exact absurd rfl h
  · rfl

/-- Heads are read alike. -/
lemma agrees_readHead (hin : c.In text) :
    Agrees text c (Bytewise.skipTrivia text c.position >>= Bytewise.readWord text)
      (readHead text.utf8ByteSize c.lexemes) := by
  obtain ⟨c₁, htrivia, hin₁, hahead, hskip, -⟩ := exists_skips hin
  rw [hskip, Except.ok_bind, htrivia.lexemes_eq]
  refine .of_trivia htrivia ?_
  cases hahead.faces hin₁ with
  | nothing peek_eq lexemes_eq position_eq =>
    rw [Bytewise.readWord, peek_eq, lexemes_eq, position_eq]
    exact .refuse _ _
  | @lexeme ch rest l lexemes rest_eq peek_eq scans =>
    cases hstart : isWordStart ch with
    | true =>
      obtain ⟨name, c₂, hname⟩ := scans.word hstart
      rw [Bytewise.readWord_eq hin₁ hname, hname.lexemes_eq]
      exact .read (hname.spans.cursor_in hin₁) (TokenAt.word hname).before _
    | false =>
      have hbyte : isWordStart (leadingByte ch) = false := by
        rw [(partOf_leadingByte ch).class_eq fun _ hch =>
          utf8Size_of_isWordChar (isWordChar_of_isWordStart hch), hstart]
      rw [Bytewise.readWord, peek_eq, scans.lexemes_eq, readHead_of_ne (scans.not_word hstart),
        scans.position_eq, scans.leading_eq]
      dsimp only
      rw [if_neg (by simp [hbyte])]
      exact .refuse _ _

/-- An expression without a parenthesis is refused, however deep it may nest. -/
lemma Bytewise.readExpr_of_error {room levels position : Nat} {failure : Failure}
    (h : Bytewise.readOpen text position = .error failure) :
    Bytewise.readExpr text room levels position = .error failure := by
  cases levels <;> rw [Bytewise.readExpr, h] <;> rfl

/-- Expressions are read alike if bodies are. -/
lemma BodiesAgree.readExpr {room levels depth : Nat} (h : BodiesAgree text room fuel)
    (hdepth : depth + levels = maxDepth) (hin : c.In text) (hfuel : c.lexemes.length ≤ fuel + 1)
    (hroom : bracketDepth 0 c.lexemes ≤ room) :
    Agrees text c (Bytewise.readExpr text room levels c.position)
      (readTree text.utf8ByteSize fuel depth c.lexemes) := by
  obtain ⟨c₁, htrivia, hin₁, hahead, hskip, hagain⟩ := exists_skips hin
  rw [htrivia.lexemes_eq] at hfuel hroom ⊢
  refine .of_trivia htrivia ?_
  have hopen : Bytewise.readOpen text c.position =
      Bytewise.expectOpen text c₁.position >>= fun next => .ok (c₁.position, next) := by
    rw [Bytewise.readOpen, hskip, Except.ok_bind]
  cases hahead.faces hin₁ with
  | nothing peek_eq lexemes_eq position_eq =>
    have hrefuse : Bytewise.readOpen text c.position =
        Bytewise.refuse c₁.position (.expectedOpen none) := by
      rw [hopen, Bytewise.expectOpen, hagain, Except.ok_bind, peek_eq]
      rfl
    rw [Bytewise.readExpr_of_error hrefuse, lexemes_eq, position_eq]
    exact .refuse _ _
  | @lexeme ch rest l lexemes rest_eq peek_eq scans =>
    have hparen := scans.byte_eq_iff '(' rfl
    by_cases htoken : l.token = .openParen
    · obtain ⟨c₂, hin₂, hbefore, hposition, rfl⟩ :=
        scans.exists_behind '(' hin₁ rest_eq rfl htoken
      have hopened : Bytewise.readOpen text c.position = .ok (c₁.position, c₂.position) := by
        rw [hopen, Bytewise.expectOpen, hagain, Except.ok_bind, peek_eq, hposition]
        dsimp only
        rw [if_pos (hparen.mpr htoken)]
        rfl
      rw [scans.lexemes_eq] at hfuel hroom ⊢
      rw [List.length_cons] at hfuel
      rw [bracketDepth_cons (by simp [htoken]) (by simp [htoken])] at hroom
      rw [readTree, readOpening_eq_bind htoken, scans.position_eq]
      cases levels with
      | zero =>
        rw [if_pos (by omega), Bytewise.readExpr, hopened]
        exact .refuse _ _
      | succ levels =>
        rw [if_neg (by omega), Bytewise.readExpr, hopened, bind_assoc]
        refine .of_before hbefore ?_
        simp only [Except.ok_bind]
        rw [← bind_assoc]
        refine (agrees_readHead hin₂).bind fun head c₃ hin₃ hbefore₃ hhead => ?_
        have hless := hbefore₃.fewer
        have hrest := bracketDepth_of_readHead 0 hhead
        have hlevels : depth + 1 + levels = maxDepth := by omega
        simpa using h ⟨c₁.position, head⟩ ⟨[], []⟩ hlevels hin₃ (by omega) (by omega)
    · have hrefuse : Bytewise.readOpen text c.position =
          Bytewise.refuse c₁.position (.expectedOpen (some (leadingByte ch))) := by
        rw [hopen, Bytewise.expectOpen, hagain, Except.ok_bind, peek_eq]
        dsimp only
        rw [if_neg (mt hparen.mp htoken)]
        rfl
      rw [Bytewise.readExpr_of_error hrefuse, scans.lexemes_eq, readTree,
        readOpening_of_ne htoken, scans.position_eq, scans.leading_eq]
      exact .refuse _ _

/-- A turn of an expression does what the token says that comes next. -/
lemma bodyTurn_eq (room : Nat) (child : Nat → Except Failure (Expr × Nat)) (opening : Opening)
    (body : Body) {ch : Char} {l : Lexeme} {lexemes : List Lexeme} (hskips : Skips text c c₁)
    (hpeek : Bytewise.peek text c₁.position = some (leadingByte ch))
    (hscans : Scans c₁ ch l lexemes) :
    Bytewise.bodyTurn text room child opening body c.position =
      if l.token = .closeParen then
        .ok (.exit (.expr ⟨opening.head, opening.position, body.fields⟩ body.children)
          (c₁.position + 1))
      else if l.token = .openParen then
        child c₁.position >>= fun r => .ok (.again ⟨body.fields, body.children ++ [r.1]⟩ r.2)
      else
        Bytewise.readField text room c₁.position >>= fun r =>
          .ok (.again ⟨body.fields ++ [r.1], body.children⟩ r.2) := by
  rw [Bytewise.bodyTurn, hskips.skip_eq, Except.ok_bind, hpeek]
  simp only [hscans.byte_eq_iff ')' rfl, hscans.byte_eq_iff '(' rfl]

/-- An expression that does not end is refused by both readers. -/
lemma agrees_bodyTurn_of_nil {room levels depth : Nat} {opening : Opening} {body : Body}
    {g : Body × List Lexeme → Except ParseError (Expr × List Lexeme)} (hin : c.In text)
    (h : c.lexemes = []) :
    Agrees text c
      (Bytewise.loop text
        (Bytewise.bodyTurn text room (Bytewise.readExpr text room levels) opening) body c.position)
      (readBody text.utf8ByteSize fuel depth opening c.lexemes >>= g) := by
  obtain ⟨c₁, htrivia, hin₁, hahead, hskip, -⟩ := exists_skips hin
  have hread : readBody text.utf8ByteSize fuel depth opening [] =
      .error (.malformed text.utf8ByteSize (.neverClosed opening.head opening.position)) := by
    cases fuel <;> rfl
  cases hahead.faces hin₁ with
  | nothing peek_eq lexemes_eq position_eq =>
    have hturn : Bytewise.bodyTurn text room (Bytewise.readExpr text room levels) opening body
          c.position =
        Bytewise.refuse text.utf8ByteSize (.neverClosed opening.head opening.position) := by
      rw [Bytewise.bodyTurn, hskip, Except.ok_bind, peek_eq, position_eq]
    rw [h, hread, Bytewise.loop_of_error hturn]
    exact .refuse _ _
  | lexeme rest_eq peek_eq scans =>
    have hlexemes := scans.lexemes_eq
    rw [← htrivia.lexemes_eq, h] at hlexemes
    cases hlexemes

/-- Bodies are read alike. -/
lemma bodiesAgree (text : String) (room fuel : Nat) : BodiesAgree text room fuel := by
  -- a child takes its parenthesis before its body is read, so the hypothesis serves for its body
  -- as well as for what stands behind it
  induction fuel with
  | zero =>
    intro levels depth opening body c _ hin hfuel _
    exact agrees_bodyTurn_of_nil hin (List.eq_nil_of_length_eq_zero (Nat.le_zero.mp hfuel))
  | succ fuel ih =>
    intro levels depth opening body c hdepth hin hfuel hroom
    obtain ⟨c₁, hskips⟩ := exists_skips hin
    have hin₁ := hskips.cursor_in
    have hlexemes := hskips.trivia.lexemes_eq
    have hle := hskips.trivia.position_le
    cases hskips.ahead.faces hin₁ with
    | nothing peek_eq lexemes_eq => exact agrees_bodyTurn_of_nil hin (hlexemes.trans lexemes_eq)
    | @lexeme ch rest l lexemes rest_eq peek_eq scans =>
      have hturn :=
        bodyTurn_eq room (Bytewise.readExpr text room levels) opening body hskips peek_eq scans
      refine .of_trivia hskips.trivia ?_
      rw [hlexemes] at hfuel hroom ⊢
      have hfuel' := hfuel
      have hroom' := hroom
      rw [scans.lexemes_eq] at hfuel hroom ⊢
      rw [List.length_cons] at hfuel
      by_cases hclose : l.token = .closeParen
      · obtain ⟨c₂, hin₂, hbefore, hposition, rfl⟩ :=
          scans.exists_behind ')' hin₁ rest_eq rfl hclose
        rw [if_pos hclose, ← hposition] at hturn
        rw [Bytewise.loop_of_exit hturn]
        simp only [readBody, hclose, Except.ok_bind, List.append_nil]
        exact .read hin₂ hbefore _
      rw [if_neg hclose] at hturn
      by_cases hopen : l.token = .openParen
      · have hchild := ih.readExpr hdepth hin₁ hfuel' hroom'
        rw [scans.lexemes_eq] at hchild
        rw [if_pos hopen] at hturn
        rw [readBody_of_openParen hopen, bind_assoc]
        refine hchild.loop (fun e => ⟨body.fields, body.children ++ [e]⟩) hturn hle
          fun e c₂ hin₂ hbefore he => ?_
        have hless := hbefore.fewer
        rw [scans.lexemes_eq, List.length_cons] at hless
        have hmore := ih opening ⟨body.fields, body.children ++ [e]⟩ hdepth hin₂ (by omega)
          (Nat.le_trans (bracketDepth_of_readTree 0 he) hroom)
        simpa using hmore
      · have hfield := agrees_readField room 0 hin₁ hskips.ahead rest_eq hfuel' hroom'
        rw [scans.lexemes_eq] at hfield
        rw [if_neg hopen] at hturn
        rw [readBody_of_ne hopen hclose, bind_assoc]
        refine hfield.loop (fun f => ⟨body.fields ++ [f], body.children⟩) hturn hle
          fun f c₂ hin₂ hbefore hf => ?_
        have hless := hbefore.fewer
        rw [scans.lexemes_eq, List.length_cons] at hless
        have hmore := ih opening ⟨body.fields ++ [f], body.children⟩ hdepth hin₂ (by omega)
          (Nat.le_trans (bracketDepth_of_readField 0 hf) hroom)
        simpa using hmore

/-! ## Texts -/

lemma Expr.ofTokens_eq_bind (stop : Nat) (tokens : List Lexeme) :
    Expr.ofTokens stop tokens = readTree stop tokens.length 0 tokens >>= fun r =>
      match r.2 with
      | [] => .ok r.1
      | t :: _ => .error (.malformed t.position .trailingInput) := by
  rw [readTree, bind_assoc]
  refine bind_congr fun opening => ?_
  rw [bind_assoc]
  exact bind_congr fun body => rfl

/-- **Reading bytes comes to what reading tokens comes to**, if there is room for the lists that are
open at a time. -/
theorem Bytewise.read_eq {room : Nat} (hroom : bracketDepth 0 (scan 0 text.toList) ≤ room) :
    Bytewise.read text room = (Expr.ofText text).mapError .refused := by
  have hin := in_start text
  have hagrees : Agrees text (start text) (Bytewise.readExpr text room maxDepth 0)
      (readTree text.utf8ByteSize (scan 0 text.toList).length 0 (scan 0 text.toList)) :=
    (bodiesAgree text room _).readExpr (Nat.zero_add _) hin (Nat.le_succ _) hroom
  have hofText : Expr.ofText text = Expr.ofTokens text.utf8ByteSize (scan 0 text.toList) := by
    rw [← utf8Length_toList]
    rfl
  rw [hofText, Expr.ofTokens_eq_bind, Bytewise.read]
  generalize Bytewise.readExpr text room maxDepth 0 = x at hagrees ⊢
  generalize readTree text.utf8ByteSize (scan 0 text.toList).length 0 (scan 0 text.toList) = y
    at hagrees ⊢
  cases hagrees with
  | refused => rfl
  | read cursor_in before e =>
    rename_i c
    obtain ⟨c₁, htrivia, hin₁, hahead, hskip, -⟩ := exists_skips cursor_in
    simp only [Except.ok_bind, hskip, htrivia.lexemes_eq]
    cases hahead.faces hin₁ with
    | nothing peek_eq lexemes_eq position_eq =>
      rw [lexemes_eq, position_eq, if_neg (Nat.lt_irrefl _)]
      rfl
    | lexeme rest_eq peek_eq scans =>
      have hne : c₁.position ≠ text.utf8ByteSize := fun h => by
        rw [hin₁.position_eq_iff.mp h] at rest_eq
        cases rest_eq
      rw [scans.lexemes_eq, if_pos (Nat.lt_of_le_of_ne hin₁.position_le hne), ← scans.position_eq]
      rfl

/-! ## Heads and operands -/

/-- A head is cut behind its first character. -/
lemma Bytewise.splitHead_of_cons {head : String} {first second : Char} {rest : List Char}
    (hhead : head.toList = first :: second :: rest) :
    Bytewise.splitHead head =
      .ok (some (String.ofList [first], String.ofList (second :: rest))) := by
  have hfirst := spans_after (c := start head) [first] (second :: rest) hhead
  have hstem := spans_after (c := (start head).after [first] (second :: rest)) (second :: rest) []
    (List.append_nil _).symm
  have hin := hfirst.cursor_in (in_start head)
  have hcut : ((start head).after [first] (second :: rest)).position = first.utf8Size := by
    rw [hfirst.position_eq, utf8Length_cons]
    exact Nat.zero_add _
  have hletter : Bytewise.slice head 0 first.utf8Size = .ok (String.ofList [first]) :=
    hcut ▸ (in_start head).slice_eq hfirst
  have hrest := hin.slice_eq hstem
  rw [(hstem.cursor_in hin).position_eq_iff.mpr rfl, hcut] at hrest
  simp only [Bytewise.splitHead, hhead, hletter, hrest, Except.ok_bind]

/-- No opcode has an empty stem. -/
lemma decodeStemmed?_nil (letter : Char) : Opcode.decodeStemmed? letter [] = none := by
  have hfind : Opcode.stemmed.find? (fun op => op.stem == String.ofList []) = none := by decide
  simp [Opcode.decodeStemmed?, hfind]

/-- A name that is no keyword is a comparison, or a type letter and a stem. -/
lemma decode?_of_ne {head : String} (hgoto : head ≠ "goto") (hreturn : head ≠ "return")
    (hcall : head ≠ "call") :
    Opcode.decode? head =
      match head.toList with
      | 'i' :: 'f' :: rest => Opcode.decodeCompare? rest
      | letter :: stem => Opcode.decodeStemmed? letter stem
      | [] => none := by
  unfold Opcode.decode?
  split
  · contradiction
  · contradiction
  · contradiction
  · rfl

/-- Heads are decoded alike. -/
lemma Bytewise.decode_eq (head : String) : Bytewise.decode head = .ok (Opcode.decode? head) := by
  unfold Bytewise.decode
  split
  · rfl
  · rfl
  · rfl
  · rename_i hgoto hreturn hcall
    rw [decode?_of_ne hgoto hreturn hcall]
    split
    · rename_i hhead
      simp [hhead]
    · rename_i hcompare
      match hhead : head.toList with
      | [] => simp [Bytewise.splitHead, hhead]
      | [letter] => simp [Bytewise.splitHead, hhead, decodeStemmed?_nil]
      | first :: second :: rest =>
        rw [Bytewise.splitHead_of_cons hhead]
        split
        · rename_i heq
          cases heq
          exact absurd hhead (hcompare _)
        · rename_i heq
          cases heq
          simp
        · contradiction

/-- Operands are there if there are as many as there should be. -/
lemma Bytewise.lookUp_eq (f : Form) (count : Nat) (operands : List Node) :
    Bytewise.lookUp f count operands =
      if operands.length = count then .ok operands
      else Bytewise.refuse f.position (.arity f.head count operands.length) := by
  unfold Bytewise.lookUp
  split
  · rename_i hcount
    subst hcount
    rw [Except.mapM_eq_ok_iff, List.forall₂_iff_get]
    refine ⟨List.length_range, fun i _ hi => ?_⟩
    simp [List.getElem?_eq_getElem hi]
  · rfl

end TreeCode.Source
