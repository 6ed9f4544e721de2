import Mathlib.Tactic.Common
import TreeCode.Proofs.Reading
import TreeCode.Proofs.Recognition

/-!
# How deep the reader recurses

The reader calls itself for an expression within an expression and for a value within a list.
`Expr.calls` counts how many of these calls are one within the other at most, whether the text is
accepted or not.  Parentheses are limited, brackets are not: beyond the limit the number of calls is
bounded by the brackets that are open at a time and by nothing else (`Expr.calls_ofText`): a text
that nests lists as deep as one likes is read (`Expr.exists_le_calls`).
-/

namespace TreeCode.Source

/-! ## What is around a value -/

/-- So many brackets are around the second value within the first one. -/
inductive Value.Holds : Value → Nat → Value → Prop where
  | self (v : Value) : Holds v 0 v
  | item {v w : Value} {vs : List Value} {k : Nat} (hv : v ∈ vs) (h : Holds v k w) :
      Holds (.list vs) (k + 1) w

/-- So many parentheses and brackets are around the value within the expression. -/
inductive Expr.Encloses : Expr → Nat → Value → Prop where
  | field {form : Form} {es : List Expr} {f : Field} {k : Nat} {v : Value}
      (hf : f ∈ form.fields) (h : f.value.Holds k v) : Encloses (.expr form es) (k + 1) v
  | child {form : Form} {es : List Expr} {e : Expr} {k : Nat} {v : Value} (he : e ∈ es)
      (h : Encloses e k v) : Encloses (.expr form es) (k + 1) v

/-- The most brackets that are open at a time, if so many are open in front of the tokens. -/
def bracketDepth (opened : Nat) : List Lexeme → Nat
  | [] => opened
  | t :: ts =>
    match t.token with
    | .openBracket => bracketDepth (opened + 1) ts
    | .closeBracket => max opened (bracketDepth (opened - 1) ts)
    | _ => bracketDepth opened ts

/-! ## Calls -/

/-- How many calls for values are one within the other while the rest of a list is read. -/
def listCalls : (fuel : Nat) → (first : Bool) → List Lexeme → Nat
  | 0, _, _ | _, _, [] => 0
  | fuel + 1, first, t :: rest =>
    match t.token with
    | .closeBracket => 0
    | .comma => if first then 1 else listCalls fuel false rest
    | .openBracket =>
      max (listCalls fuel true rest + 1)
        (match readList t.position fuel true rest with
        | .ok (_, rest) => listCalls fuel false rest
        | .error _ => 0)
    | _ =>
      max 1
        (match readAtom t with
        | .ok _ => listCalls fuel false rest
        | .error _ => 0)

/-- How many calls for values are one within the other while a value is read. -/
def valueCalls (fuel : Nat) : List Lexeme → Nat
  | [] => 1
  | t :: rest => if t.token = .openBracket then listCalls fuel true rest + 1 else 1

/-- How many calls for values are one within the other while a field is read.  A word on its own
needs none. -/
def fieldCalls (fuel : Nat) : List Lexeme → Nat
  | ⟨_, .word _⟩ :: ⟨_, .equals⟩ :: rest => valueCalls fuel rest
  | ⟨_, .word _⟩ :: _ => 0
  | tokens => valueCalls fuel tokens

/-- How many calls are one within the other while an expression is read behind its head. -/
def bodyCalls (stop : Nat) : (fuel depth : Nat) → Opening → List Lexeme → Nat
  | 0, _, _, _ | _, _, _, [] => 0
  | fuel + 1, depth, opening, t :: rest =>
    match t.token with
    | .closeParen => 0
    | .openParen =>
      match readOpening stop depth (t :: rest) with
      | .error _ => 1
      | .ok (inner, rest) =>
        max (bodyCalls stop fuel (depth + 1) inner rest + 1)
          (match readBody stop fuel (depth + 1) inner rest with
          | .ok (_, rest) => bodyCalls stop fuel depth opening rest
          | .error _ => 0)
    | _ =>
      max (fieldCalls fuel (t :: rest))
        (match readField stop fuel (t :: rest) with
        | .ok (_, rest) => bodyCalls stop fuel depth opening rest
        | .error _ => 0)

/-- How many calls of the reader are one within the other at most while a text is read. -/
def Expr.calls (text : String) : Nat :=
  let stop := utf8Length text.toList
  let tokens := scan 0 text.toList
  match readOpening stop 0 tokens with
  | .error _ => 1
  | .ok (opening, rest) => bodyCalls stop tokens.length 1 opening rest + 1

variable {stop fuel depth start opened : Nat} {first : Bool} {tokens rest : List Lexeme}
  {opening : Opening} {body : Body} {f : Field} {v w : Value} {vs : List Value} {k : Nat}

/-! ## Lists -/

lemma le_bracketDepth (opened : Nat) (tokens : List Lexeme) :
    opened ≤ bracketDepth opened tokens := by
  induction tokens generalizing opened with
  | nil => exact Nat.le_refl _
  | cons t ts ih =>
    rw [bracketDepth]
    split
    · exact Nat.le_trans (Nat.le_succ _) (ih _)
    · exact Nat.le_max_left _ _
    · exact ih _

lemma bracketDepth_cons {t : Lexeme} (hopen : t.token ≠ .openBracket)
    (hclose : t.token ≠ .closeBracket) :
    bracketDepth opened (t :: tokens) = bracketDepth opened tokens := by
  rw [bracketDepth]
  split
  · contradiction
  · contradiction
  · rfl

/-- Behind a list no more brackets are open than in it. -/
lemma bracketDepth_of_readList (opened : Nat)
    (h : readList start fuel first tokens = .ok (vs, rest)) :
    bracketDepth opened rest ≤ bracketDepth (opened + 1) tokens := by
  induction fuel generalizing start first tokens vs rest opened with
  | zero => simp [readList] at h
  | succ fuel ih =>
    cases listRead_of_readList h with
    | close token =>
      simp only [bracketDepth, token, Nat.add_sub_cancel]
      exact Nat.le_max_right _ _
    | comma token more =>
      rw [bracketDepth_cons (by simp [token]) (by simp [token])]
      exact ih opened more
    | list token within more =>
      simp only [bracketDepth, token]
      exact Nat.le_trans (ih opened more) (ih (opened + 1) within)
    | atom value more =>
      obtain ⟨hopen, hclose, -⟩ := token_ne_of_readAtom value
      rw [bracketDepth_cons hopen hclose]
      exact ih opened more

/-- Within a list there are no more calls than brackets, but for the one of an atom. -/
lemma listCalls_le (fuel : Nat) (first : Bool) (opened : Nat) (tokens : List Lexeme) :
    listCalls fuel first tokens + opened ≤ bracketDepth opened tokens + 1 := by
  induction fuel generalizing first opened tokens with
  | zero =>
    rw [listCalls]
    have hle := le_bracketDepth opened tokens
    omega
  | succ fuel ih =>
    have hle := le_bracketDepth opened tokens
    cases tokens with
    | nil =>
      simp only [listCalls]
      omega
    | cons t tokens =>
      rw [listCalls]
      split
      case h_1 => omega
      case h_2 hcomma =>
        split
        · omega
        · rw [bracketDepth_cons (by simp [hcomma]) (by simp [hcomma])]
          exact ih _ _ _
      case h_3 hopen =>
        simp only [bracketDepth, hopen]
        have hinner := ih true (opened + 1) tokens
        split
        · rename_i vs rest hread
          have hrest := bracketDepth_of_readList opened hread
          have hothers := ih false opened rest
          omega
        · omega
      case h_4 =>
        split
        · rename_i value hvalue
          obtain ⟨hopen, hclose, -⟩ := token_ne_of_readAtom hvalue
          rw [bracketDepth_cons hopen hclose]
          have hothers := ih false opened tokens
          have hle' := le_bracketDepth opened tokens
          omega
        · omega

lemma listCalls_of_readAtom {t : Lexeme} (h : readAtom t = .ok v) :
    listCalls (fuel + 1) first (t :: tokens) = max 1 (listCalls fuel false tokens) := by
  obtain ⟨hopen, hclose, hcomma⟩ := token_ne_of_readAtom h
  rw [listCalls]
  split
  · contradiction
  · contradiction
  · contradiction
  · rw [h]

/-- A value in a list has been read by a call within as many others as there are brackets. -/
lemma lt_listCalls (h : readList start fuel first tokens = .ok (vs, rest)) (hv : v ∈ vs)
    (hw : v.Holds k w) : k < listCalls fuel first tokens := by
  induction fuel generalizing start first tokens vs rest v k with
  | zero => simp [readList] at h
  | succ fuel ih =>
    cases listRead_of_readList h with
    | close => cases hv
    | comma token more =>
      simp only [listCalls, token, Bool.false_eq_true, if_false]
      exact ih more hv hw
    | list token within more =>
      simp only [listCalls, token, within]
      rcases List.mem_cons.mp hv with rfl | hv
      · refine Nat.lt_of_lt_of_le ?_ (Nat.le_max_left _ _)
        cases hw with
        | self => exact Nat.succ_pos _
        | item hv' hw' => exact Nat.succ_lt_succ (ih within hv' hw')
      · exact Nat.lt_of_lt_of_le (ih more hv hw) (Nat.le_max_right _ _)
    | atom value more =>
      rw [listCalls_of_readAtom value]
      rcases List.mem_cons.mp hv with rfl | hv
      · refine Nat.lt_of_lt_of_le ?_ (Nat.le_max_left _ _)
        cases hw with
        | self => exact Nat.one_pos
        | item => exact (readAtom_ne_list _ value).elim
      · exact Nat.lt_of_lt_of_le (ih more hv hw) (Nat.le_max_right _ _)

/-! ## Values and fields -/

/-- Behind a value no more brackets are open than in front of it. -/
lemma bracketDepth_of_readValue (opened : Nat) (h : readValue stop fuel tokens = .ok (v, rest)) :
    bracketDepth opened rest ≤ bracketDepth opened tokens := by
  cases valueRead_of_readValue h with
  | list token within =>
    simp only [bracketDepth, token]
    exact bracketDepth_of_readList opened within
  | atom value =>
    obtain ⟨hopen, hclose, -⟩ := token_ne_of_readAtom value
    exact Nat.le_of_eq (bracketDepth_cons hopen hclose).symm

lemma valueCalls_le (fuel opened : Nat) (tokens : List Lexeme) :
    valueCalls fuel tokens + opened ≤ bracketDepth opened tokens + 1 := by
  have hle := le_bracketDepth opened tokens
  cases tokens with
  | nil =>
    rw [valueCalls]
    omega
  | cons t tokens =>
    rw [valueCalls]
    split
    · rename_i hopen
      simp only [bracketDepth, hopen]
      have hlist := listCalls_le fuel true (opened + 1) tokens
      omega
    · omega

/-- What is within a value has been read by a call within the one for the value. -/
lemma lt_valueCalls (h : readValue stop fuel tokens = .ok (v, rest)) (hw : v.Holds k w) :
    k < valueCalls fuel tokens := by
  cases valueRead_of_readValue h with
  | list token within =>
    rw [valueCalls, if_pos token]
    cases hw with
    | self => exact Nat.succ_pos _
    | item hv hw => exact Nat.succ_lt_succ (lt_listCalls within hv hw)
  | atom value =>
    rw [valueCalls, if_neg (token_ne_of_readAtom value).1]
    cases hw with
    | self => exact Nat.one_pos
    | item => exact (readAtom_ne_list _ value).elim

lemma bracketDepth_of_readField (opened : Nat) (h : readField stop fuel tokens = .ok (f, rest)) :
    bracketDepth opened rest ≤ bracketDepth opened tokens := by
  cases fieldRead_of_readField h with
  | keyed value =>
    rw [bracketDepth_cons (by simp) (by simp), bracketDepth_cons (by simp) (by simp)]
    exact bracketDepth_of_readValue opened value
  | bare not_key value => exact bracketDepth_of_readValue opened value

lemma fieldCalls_le (fuel opened : Nat) (tokens : List Lexeme) :
    fieldCalls fuel tokens + opened ≤ bracketDepth opened tokens + 1 := by
  have hle := le_bracketDepth opened tokens
  unfold fieldCalls
  split
  · exact valueCalls_le _ _ _
  · omega
  · exact valueCalls_le _ _ _

/-- What is within the value of a field has been read by a call for each bracket around it. -/
lemma le_fieldCalls (h : readField stop fuel tokens = .ok (f, rest)) (hw : f.value.Holds k w) :
    k ≤ fieldCalls fuel tokens := by
  cases fieldRead_of_readField h with
  | keyed value => exact Nat.le_of_lt (lt_valueCalls value hw)
  | bare not_key value =>
    unfold fieldCalls
    split
    · exact (not_key _ _ _ _ rfl).elim
    -- a word on its own holds nothing but itself
    · simp only [readValue, readAtom, reduceCtorEq, if_false] at value
      obtain ⟨rfl, -⟩ := Prod.mk.inj (Except.ok.inj value)
      cases hw
      exact Nat.le_refl 0
    · exact Nat.le_of_lt (lt_valueCalls value hw)

/-! ## Expressions -/

lemma bracketDepth_of_readOpening (h : readOpening stop depth tokens = .ok (opening, rest)) :
    bracketDepth opened rest = bracketDepth opened tokens := by
  obtain ⟨-, place, rfl⟩ := exists_of_readOpening h
  rfl

lemma bracketDepth_of_readBody (opened : Nat)
    (h : readBody stop fuel depth opening tokens = .ok (body, rest)) :
    bracketDepth opened rest ≤ bracketDepth opened tokens := by
  induction fuel generalizing depth opening tokens body rest with
  | zero => simp [readBody] at h
  | succ fuel ih =>
    cases bodyRead_of_readBody h with
    | close token =>
      exact Nat.le_of_eq (bracketDepth_cons (by simp [token]) (by simp [token])).symm
    | child token opens within more =>
      rw [← bracketDepth_of_readOpening opens]
      exact Nat.le_trans (ih more) (ih within)
    | field not_close not_open field more =>
      exact Nat.le_trans (ih more) (bracketDepth_of_readField opened field)

/-- Parentheses and brackets bound the calls: the former are limited, the latter are those that
are open. -/
lemma bodyCalls_le (stop fuel : Nat) (hdepth : depth ≤ maxDepth) (opening : Opening)
    (tokens : List Lexeme) :
    bodyCalls stop fuel depth opening tokens + depth ≤ maxDepth + 1 + bracketDepth 0 tokens := by
  induction fuel generalizing depth opening tokens with
  | zero =>
    rw [bodyCalls]
    omega
  | succ fuel ih =>
    cases tokens with
    | nil =>
      simp only [bodyCalls]
      omega
    | cons t tokens =>
      rw [bodyCalls]
      split
      case h_1 => omega
      case h_2 =>
        split
        · omega
        · rename_i inner rest hopening
          have hlt : depth + 1 ≤ maxDepth := depth_lt_of_readOpening hopening
          have hinner := ih hlt inner rest
          rw [bracketDepth_of_readOpening hopening] at hinner
          split
          · rename_i body rest' hread
            have hothers := ih hdepth opening rest'
            have hrest := bracketDepth_of_readBody 0 hread
            rw [bracketDepth_of_readOpening hopening] at hrest
            omega
          · omega
      case h_3 =>
        have hfield := fieldCalls_le fuel 0 (t :: tokens)
        split
        · rename_i field rest hread
          have hothers := ih hdepth opening rest
          have hrest := bracketDepth_of_readField 0 hread
          omega
        · omega

/-- A field or a child of the body has the value within so many parentheses and brackets. -/
def Body.Encloses (b : Body) (k : Nat) (v : Value) : Prop :=
  (∃ f ∈ b.fields, f.value.Holds k v) ∨ ∃ e ∈ b.children, e.Encloses k v

lemma encloses_expr_iff {e : Expr} :
    e.Encloses k v ↔ ∃ j, k = j + 1 ∧ Body.Encloses ⟨e.form.fields, e.children⟩ j v := by
  constructor
  · rintro (⟨hf, h⟩ | ⟨he, h⟩)
    · exact ⟨_, rfl, .inl ⟨_, hf, h⟩⟩
    · exact ⟨_, rfl, .inr ⟨_, he, h⟩⟩
  · obtain ⟨form, es⟩ := e
    rintro ⟨j, rfl, ⟨f, hf, h⟩ | ⟨e, he, h⟩⟩
    · exact .field hf h
    · exact .child he h

/-- What is within a body has been read by a call for each parenthesis and bracket around it. -/
lemma le_bodyCalls (h : readBody stop fuel depth opening tokens = .ok (body, rest))
    (hv : body.Encloses k v) : k ≤ bodyCalls stop fuel depth opening tokens := by
  induction fuel generalizing depth opening tokens body rest k with
  | zero => simp [readBody] at h
  | succ fuel ih =>
    cases bodyRead_of_readBody h with
    | close => simp [Body.Encloses] at hv
    | child token opens within more =>
      simp only [bodyCalls, token, opens, within]
      rcases hv with ⟨f, hf, hv⟩ | ⟨e, he, hv⟩
      · exact Nat.le_trans (ih more (.inl ⟨f, hf, hv⟩)) (Nat.le_max_right _ _)
      · rcases List.mem_cons.mp he with rfl | he
        · obtain ⟨j, rfl, hbody⟩ := encloses_expr_iff.mp hv
          exact Nat.le_trans (Nat.succ_le_succ (ih within hbody)) (Nat.le_max_left _ _)
        · exact Nat.le_trans (ih more (.inr ⟨e, he, hv⟩)) (Nat.le_max_right _ _)
    | field not_close not_open field more =>
      rw [bodyCalls]
      split
      · contradiction
      · contradiction
      · simp only [field]
        rcases hv with ⟨f, hf, hv⟩ | hv
        · rcases List.mem_cons.mp hf with rfl | hf
          · exact Nat.le_trans (le_fieldCalls field hv) (Nat.le_max_left _ _)
          · exact Nat.le_trans (ih more (.inl ⟨f, hf, hv⟩)) (Nat.le_max_right _ _)
        · exact Nat.le_trans (ih more (.inr hv)) (Nat.le_max_right _ _)

/-! ## Refusals -/

/-- If something is wrong, it is so at a place of the text. -/
def RefusesAtPlace {α : Type} (x : Except ParseError α) : Prop :=
  ∀ err, x = .error err → ∃ position defect, err = .malformed position defect

section RefusesAtPlace

variable {α β : Type}

lemma refusesAtPlace_ok (a : α) : RefusesAtPlace (.ok a) := nofun

lemma refusesAtPlace_malformed (position : Nat) (defect : Defect) :
    RefusesAtPlace (α := α) (.error (.malformed position defect)) := by
  rintro err ⟨⟩
  exact ⟨position, defect, rfl⟩

lemma RefusesAtPlace.bind {x : Except ParseError α} {g : α → Except ParseError β}
    (hx : RefusesAtPlace x) (hg : ∀ a, RefusesAtPlace (g a)) : RefusesAtPlace (x >>= g) := by
  intro err h
  rcases Except.bind_eq_error_iff.mp h with h | ⟨a, -, h⟩
  · exact hx err h
  · exact hg a err h

end RefusesAtPlace

lemma refusesAtPlace_readAtom (t : Lexeme) : RefusesAtPlace (readAtom t) := by
  unfold readAtom
  split
  case h_1 | h_2 => exact refusesAtPlace_ok _
  case h_4 =>
    split
    · exact refusesAtPlace_ok _
    · exact refusesAtPlace_malformed _ _
  all_goals exact refusesAtPlace_malformed _ _

lemma refusesAtPlace_readList (start fuel : Nat) (first : Bool) (tokens : List Lexeme) :
    RefusesAtPlace (readList start fuel first tokens) := by
  induction fuel generalizing start first tokens with
  | zero =>
    rw [readList]
    exact refusesAtPlace_malformed _ _
  | succ fuel ih =>
    cases tokens with
    | nil =>
      rw [readList]
      · exact refusesAtPlace_malformed _ _
      · nofun
    | cons t tokens =>
      rw [readList]
      split
      · exact refusesAtPlace_ok _
      · split
        · exact refusesAtPlace_malformed _ _
        · exact ih _ _ _
      · refine (ih _ _ _).bind fun inner => (ih _ _ _).bind fun others => ?_
        exact refusesAtPlace_ok _
      · refine (refusesAtPlace_readAtom t).bind fun v => (ih _ _ _).bind fun others => ?_
        exact refusesAtPlace_ok _

lemma refusesAtPlace_readValue (stop fuel : Nat) (tokens : List Lexeme) :
    RefusesAtPlace (readValue stop fuel tokens) := by
  cases tokens with
  | nil => exact refusesAtPlace_malformed _ _
  | cons t tokens =>
    rw [readValue]
    split
    · exact (refusesAtPlace_readList _ _ _ _).bind fun items => refusesAtPlace_ok _
    · exact (refusesAtPlace_readAtom t).bind fun v => refusesAtPlace_ok _

lemma refusesAtPlace_readField (stop fuel : Nat) (tokens : List Lexeme) :
    RefusesAtPlace (readField stop fuel tokens) := by
  unfold readField
  split
  · exact (refusesAtPlace_readValue _ _ _).bind fun v => refusesAtPlace_ok _
  · exact (refusesAtPlace_readValue _ _ _).bind fun v => refusesAtPlace_ok _

lemma refusesAtPlace_readOpening (stop depth : Nat) (tokens : List Lexeme) :
    RefusesAtPlace (readOpening stop depth tokens) := by
  unfold readOpening
  split
  · split
    · exact refusesAtPlace_malformed _ _
    · split
      · exact refusesAtPlace_ok _
      · exact refusesAtPlace_malformed _ _
  · exact refusesAtPlace_malformed _ _

lemma refusesAtPlace_readBody (stop fuel depth : Nat) (opening : Opening) (tokens : List Lexeme) :
    RefusesAtPlace (readBody stop fuel depth opening tokens) := by
  induction fuel generalizing depth opening tokens with
  | zero =>
    rw [readBody]
    exact refusesAtPlace_malformed _ _
  | succ fuel ih =>
    cases tokens with
    | nil =>
      rw [readBody]
      · exact refusesAtPlace_malformed _ _
      · nofun
    | cons t tokens =>
      rw [readBody]
      split
      · exact refusesAtPlace_ok _
      · refine (refusesAtPlace_readOpening _ _ _).bind fun inner => ?_
        refine (ih _ _ _).bind fun body => (ih _ _ _).bind fun others => ?_
        exact refusesAtPlace_ok _
      · refine (refusesAtPlace_readField _ _ _).bind fun f => (ih _ _ _).bind fun others => ?_
        exact refusesAtPlace_ok _

lemma refusesAtPlace_ofText (text : String) : RefusesAtPlace (Expr.ofText text) := by
  refine (refusesAtPlace_readOpening _ _ _).bind fun opening => ?_
  refine (refusesAtPlace_readBody _ _ _ _ _).bind fun ⟨body, rest⟩ => ?_
  cases rest with
  | nil => exact refusesAtPlace_ok _
  | cons t rest => exact refusesAtPlace_malformed _ _

/-! ## Lists within lists -/

/-- A word within so many lists. -/
def Value.nested : Nat → Value
  | 0 => .ident "b"
  | n + 1 => .list [nested n]

/-- A text whose one field is a word within so many lists. -/
def nestedText (n : Nat) : String :=
  String.ofList ("(a ".toList ++ (List.replicate n '[' ++ 'b' :: List.replicate n ']') ++ [')'])

lemma holds_nested (n : Nat) : (Value.nested n).Holds n (.ident "b") := by
  induction n with
  | zero => exact .self _
  | succ n ih => exact .item (List.mem_singleton_self _) ih

/-- Brackets and a word between them are a value, as many as there are. -/
lemma exists_valueAt_nested (n : Nat) (c : Cursor) {ch : Char} {more : List Char}
    (hch : isWordChar ch = false)
    (hc : c.rest = List.replicate n '[' ++ 'b' :: List.replicate n ']' ++ ch :: more) :
    ∃ c', ValueAt c (.nested n) c' ∧ c'.rest = ch :: more := by
  induction n generalizing c ch more with
  | zero =>
    refine ⟨c.after ['b'] (ch :: more), .word ⟨?_, Cursor.spans_after _ _ hc, ?_⟩, rfl⟩
    · exact ⟨'b', [], rfl, rfl, by simp⟩
    · rintro ch' ⟨⟩
      exact hch
  | succ n ih =>
    have hopens := Cursor.spans_after (c := c) ['[']
      (List.replicate n '[' ++ 'b' :: List.replicate n ']' ++ ']' :: ch :: more)
      (by rw [hc, List.replicate_succ, List.replicate_succ']; simp)
    obtain ⟨c₁, hvalue, hc₁⟩ := ih (c.after ['['] _) (show isWordChar ']' = false from rfl) rfl
    have hcloses := Cursor.spans_after (c := c₁) [']'] (ch :: more) hc₁
    exact ⟨c₁.after [']'] (ch :: more),
      .list hopens (.nil _) hvalue (.close (.nil _) hcloses), rfl⟩

/-- No equals sign follows where a parenthesis does. -/
lemma not_equalsFollows {c : Cursor} {more : List Char} (hc : c.rest = ')' :: more) :
    ¬EqualsFollows c := by
  rintro ⟨c₁, c₂, htrivia, hequals⟩
  have hclose := (Cursor.spans_after (c := c) [')'] more hc).lexemes_eq (t := .closeParen) rfl
  rw [htrivia.lexemes_eq, hequals.lexemes_eq (t := .equals) rfl] at hclose
  simp at hclose

/-- Lists are read however deep they are nested. -/
lemma Expr.ofText_nested (n : Nat) :
    Expr.ofText (nestedText n) = .ok (.expr ⟨"a", 0, [⟨none, .nested n, 3⟩]⟩ []) := by
  apply ofText_of_derives
  let lists := List.replicate n '[' ++ 'b' :: List.replicate n ']'
  let c₀ := Cursor.start (nestedText n)
  let c₁ := c₀.after ['('] ('a' :: ' ' :: (lists ++ [')']))
  let c₂ := c₁.after ['a'] (' ' :: (lists ++ [')']))
  let c₃ := c₂.after [' '] (lists ++ [')'])
  have hopens : c₀.Spans ['('] c₁ := Cursor.spans_after _ _ String.toList_ofList
  have hword : Word c₁ "a" c₂ :=
    ⟨⟨'a', [], rfl, rfl, by simp⟩, Cursor.spans_after _ _ rfl, by rintro ch ⟨⟩; rfl⟩
  obtain ⟨c₄, hvalue, hc₄⟩ := exists_valueAt_nested n c₃ (show isWordChar ')' = false from rfl) rfl
  have hfield : FieldAt c₃ ⟨none, .nested n, 3⟩ c₄ := .bare hvalue fun _ _ => not_equalsFollows hc₄
  have hcloses := Cursor.spans_after [')'] [] hc₄
  have hbody : BodyAt 1 c₂ ⟨[⟨none, .nested n, 3⟩], []⟩ (c₄.after [')'] []) :=
    .field (.blank rfl (Cursor.spans_after _ _ rfl) (.nil _)) hfield (.close (.nil _) hcloses)
  exact ⟨c₀, c₄.after [')'] [], _, .nil _, .expr (by decide) hopens (.nil _) hword hbody, .nil _,
    rfl⟩

/-! ## The bound -/

lemma Expr.calls_le (text : String) :
    Expr.calls text ≤ maxDepth + 1 + bracketDepth 0 (scan 0 text.toList) := by
  unfold Expr.calls
  dsimp only
  split
  · omega
  · rename_i opening rest hopening
    have hone : 1 ≤ maxDepth := by decide
    have hbody :=
      bodyCalls_le (utf8Length text.toList) (scan 0 text.toList).length hone opening rest
    rw [bracketDepth_of_readOpening hopening] at hbody
    exact hbody

/-- A value of an expression has been read within a call for each parenthesis and bracket. -/
lemma Expr.le_calls {text : String} {e : Expr} (he : Expr.ofText text = .ok e)
    (hv : e.Encloses k v) : k ≤ Expr.calls text := by
  obtain ⟨opening, rest, body, hopening, hbody, rfl⟩ := exists_of_ofText he
  obtain ⟨j, rfl, hj⟩ := encloses_expr_iff.mp hv
  simp only [Expr.calls, hopening]
  exact Nat.succ_le_succ (le_bodyCalls hbody hj)

/-- **Calls of the reader are within calls only where a text is nested.**  At most as many calls
are one within the other as parentheses may nest and brackets are open at a time, and one more.  An
expression that is read has no more parentheses within each other than may be open, and a call for
each parenthesis and bracket around any of its values.  Whatever is refused is so at a place of the
text. -/
theorem Expr.calls_ofText (text : String) :
    Expr.calls text ≤ maxDepth + 1 + bracketDepth 0 (scan 0 text.toList) ∧
      (∀ e, Expr.ofText text = .ok e →
        e.height ≤ maxDepth ∧ ∀ k v, e.Encloses k v → k ≤ Expr.calls text) ∧
      RefusesAtPlace (Expr.ofText text) := by
  refine ⟨calls_le text, fun e he => ⟨height_of_ofText he, fun k v hv => ?_⟩,
    refusesAtPlace_ofText text⟩
  exact le_calls he hv

/-- The word within three lists is read within four calls. -/
theorem Expr.calls_ofText_nested :
    Expr.ofText (nestedText 3) = .ok (.expr ⟨"a", 0, [⟨none, .nested 3, 3⟩]⟩ []) ∧
      4 ≤ Expr.calls (nestedText 3) := by
  have he := ofText_nested 3
  have hword : (Expr.expr ⟨"a", 0, [⟨none, .nested 3, 3⟩]⟩ []).Encloses 4 (.ident "b") :=
    .field (List.mem_singleton_self _) (holds_nested 3)
  exact ⟨he, ((Expr.calls_ofText _).2.1 _ he).2 4 _ hword⟩

/-- **No number of calls is enough for every text that is read.**  A word within `n` lists is within
`n + 1` calls. -/
theorem Expr.exists_le_calls (n : Nat) :
    ∃ e v, Expr.ofText (nestedText n) = .ok e ∧ e.Encloses (n + 1) v ∧
      n + 1 ≤ Expr.calls (nestedText n) := by
  have he := ofText_nested n
  have hword : (Expr.expr ⟨"a", 0, [⟨none, .nested n, 3⟩]⟩ []).Encloses (n + 1) (.ident "b") :=
    .field (List.mem_singleton_self _) (holds_nested n)
  exact ⟨_, _, he, hword, le_calls he hword⟩

/-- A word is read within more parentheses and brackets than parentheses may nest. -/
theorem Expr.nested_beyond_maxDepth :
    ∃ e v k, Expr.ofText (nestedText 600) = .ok e ∧ e.Encloses k v ∧ maxDepth < k ∧
      k ≤ Expr.calls (nestedText 600) := by
  obtain ⟨e, v, he, hv, hcalls⟩ := exists_le_calls 600
  exact ⟨e, v, 601, he, hv, by decide, hcalls⟩

end TreeCode.Source
