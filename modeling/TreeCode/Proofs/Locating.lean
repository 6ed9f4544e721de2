import TreeCode.Proofs.Recursion

/-!
# Where numbers stand

Every number of a text that is read has become a value, that of a field of one of the expressions or
one in the list of a field (`Expr.written_of_ofText`).  A path leads to the expression; where the
field is written, there is the number.
-/

namespace TreeCode.Source

/-- The expression to which a path leads: the numbers of the children on the way. -/
def Expr.below? : Expr → List Nat → Option Expr
  | e, [] => some e
  | e, i :: path => e.children[i]?.bind fun child => child.below? path

/-- A value of a field that is written as the given one of the tokens: the field is that token, or
a key in front of it, or that token is among those of its list. -/
inductive Field.Written (tokens : List Lexeme) (l : Lexeme) (w : Value) : Field → Prop
  | bare : Written tokens l w ⟨none, w, l.position⟩
  | keyed {key : String} {position place : Nat}
      (adjacent : [⟨position, .word key⟩, ⟨place, .equals⟩, l] <:+: tokens) :
      Written tokens l w ⟨some key, w, position⟩
  | listed {f : Field} {given rest : List Lexeme} {stop fuel k : Nat} {v : Value} {vs : List Value}
      (part : given <:+ tokens) (reads : readField stop fuel given = .ok (f, rest))
      (within : l ∈ given) (not_behind : l ∉ rest) (is_list : f.value = .list vs) (item : v ∈ vs)
      (holds : v.Holds k w) : Written tokens l w f

/-- Somewhere in the expression the value is written as the given token. -/
def Expr.Written (tokens : List Lexeme) (l : Lexeme) (w : Value) (e : Expr) : Prop :=
  ∃ path e' f, e.below? path = some e' ∧ f ∈ e'.form.fields ∧ f.Written tokens l w

variable {stop fuel depth start : Nat} {first : Bool} {tokens rest : List Lexeme} {l : Lexeme}
  {opening : Opening} {body : Body} {f : Field} {v w : Value} {vs : List Value}

/-- With no brackets around it, it is the value itself. -/
lemma Value.Holds.eq (h : v.Holds 0 w) : v = w := by
  cases h
  rfl

lemma Expr.written_iff {e : Expr} :
    e.Written tokens l w ↔
      (∃ f ∈ e.form.fields, f.Written tokens l w) ∨
        ∃ child ∈ e.children, child.Written tokens l w := by
  constructor
  · rintro ⟨path, e', f, hpath, hf, hl⟩
    cases path with
    | nil =>
      obtain rfl := Option.some.inj hpath
      exact .inl ⟨f, hf, hl⟩
    | cons i path =>
      obtain ⟨child, hchild, hpath⟩ := Option.bind_eq_some_iff.mp hpath
      exact .inr ⟨child, List.mem_of_getElem? hchild, path, e', f, hpath, hf, hl⟩
  · rintro (⟨f, hf, hl⟩ | ⟨child, hchild, path, e', f, hpath, hf, hl⟩)
    · exact ⟨[], e, f, rfl, hf, hl⟩
    · obtain ⟨i, hi⟩ := List.getElem?_of_mem hchild
      exact ⟨i :: path, e', f, by simp [below?, hi, hpath], hf, hl⟩

/-- Tokens in front of the others change nothing. -/
lemma Field.Written.of_suffix {more : List Lexeme} (h : f.Written tokens l w)
    (hsuffix : tokens <:+ more) : f.Written more l w := by
  cases h with
  | bare => exact .bare
  | keyed adjacent => exact .keyed (adjacent.trans hsuffix.isInfix)
  | listed part reads within not_behind is_list item holds =>
    exact .listed (part.trans hsuffix) reads within not_behind is_list item holds

lemma Field.Written.exists_holds (h : f.Written tokens l w) : ∃ k, f.value.Holds k w := by
  cases h with
  | bare => exact ⟨0, .self w⟩
  | keyed => exact ⟨0, .self w⟩
  | listed _ _ _ _ is_list item holds =>
    rw [is_list]
    exact ⟨_, .item item holds⟩

/-! ## Values and fields -/

/-- The tokens in front of the rest are taken up, and the numbers among them become values in the
given way. -/
structure Takes (tokens rest : List Lexeme) (become : Lexeme → Value → Prop) : Prop where
  suffix : rest <:+ tokens
  numbers : ∀ l ∈ tokens, l ∉ rest → ∀ literal, l.token = .number literal →
    ∃ w, literalValue? literal.toList = some w ∧ become l w

namespace Takes

variable {middle : List Lexeme} {t : Lexeme} {become become' : Lexeme → Value → Prop}

/-- A token that is no number. -/
lemma skip (h : ∀ literal, t.token ≠ .number literal) : Takes (t :: rest) rest become := by
  refine ⟨List.suffix_cons _ _, fun l hl hrest literal hnumber => ?_⟩
  obtain rfl := (List.mem_cons.mp hl).resolve_right hrest
  exact absurd hnumber (h literal)

/-- A token that is a value on its own. -/
lemma atom (hv : readAtom t = .ok v) (h : become t v) : Takes (t :: rest) rest become := by
  refine ⟨List.suffix_cons _ _, fun l hl hrest literal hnumber => ?_⟩
  obtain rfl := (List.mem_cons.mp hl).resolve_right hrest
  simp only [readAtom, hnumber] at hv
  split at hv
  · rename_i w hw
    obtain rfl := Except.ok.inj hv
    exact ⟨w, hw, h⟩
  · cases hv

lemma trans (h : Takes tokens middle become) (h' : Takes middle rest become) :
    Takes tokens rest become := by
  refine ⟨h'.suffix.trans h.suffix, fun l hl hrest literal hnumber => ?_⟩
  by_cases hmiddle : l ∈ middle
  · exact h'.numbers l hmiddle hrest literal hnumber
  · exact h.numbers l hl hmiddle literal hnumber

lemma imp (h : Takes tokens rest become)
    (himp : ∀ l ∈ tokens, l ∉ rest → ∀ w, become l w → become' l w) :
    Takes tokens rest become' := by
  refine ⟨h.suffix, fun l hl hrest literal hnumber => ?_⟩
  obtain ⟨w, hw, hbecome⟩ := h.numbers l hl hrest literal hnumber
  exact ⟨w, hw, himp l hl hrest w hbecome⟩

end Takes

/-- The numbers in a list are within its values. -/
lemma takes_of_readList (h : readList start fuel first tokens = .ok (vs, rest)) :
    Takes tokens rest fun _ w => ∃ v ∈ vs, ∃ k, v.Holds k w := by
  induction fuel generalizing start first tokens vs rest with
  | zero => simp [readList] at h
  | succ fuel ih =>
    cases listRead_of_readList h with
    | close token => exact .skip (by simp [token])
    | comma token more => exact (Takes.skip (by simp [token])).trans (ih more)
    | list token within more =>
      refine (Takes.skip (by simp [token])).trans (((ih within).imp ?_).trans ((ih more).imp ?_))
      · rintro l - - w ⟨v, hv, k, hw⟩
        exact ⟨_, List.mem_cons_self, k + 1, .item hv hw⟩
      · rintro l - - w ⟨v, hv, hw⟩
        exact ⟨v, List.mem_cons_of_mem _ hv, hw⟩
    | atom value more =>
      refine (Takes.atom value ?_).trans ((ih more).imp ?_)
      · exact ⟨_, List.mem_cons_self, 0, .self _⟩
      · rintro l - - w ⟨v, hv, hw⟩
        exact ⟨v, List.mem_cons_of_mem _ hv, hw⟩

/-- The number in a value is the value, or it is within a list. -/
lemma takes_of_readValue (h : readValue stop fuel tokens = .ok (v, rest)) :
    Takes tokens rest fun l w => (tokens.head? = some l ∧ v = w) ∨
      ∃ vs, v = .list vs ∧ ∃ u ∈ vs, ∃ k, u.Holds k w := by
  cases valueRead_of_readValue h with
  | list token within =>
    refine (Takes.skip (by simp [token])).trans ((takes_of_readList within).imp ?_)
    intro l _ _ w hw
    exact .inr ⟨_, rfl, hw⟩
  | atom value => exact .atom value (.inl ⟨rfl, rfl⟩)

lemma takes_of_readField (h : readField stop fuel tokens = .ok (f, rest)) :
    Takes tokens rest fun l w => f.Written tokens l w := by
  cases fieldRead_of_readField h with
  | @keyed position place key tokens _ v value =>
    refine (Takes.skip (by simp)).trans ((Takes.skip (by simp)).trans
      ((takes_of_readValue value).imp ?_))
    rintro l hl hrest w (⟨hhead, rfl⟩ | ⟨vs, rfl, u, hu, k, hw⟩)
    · obtain ⟨more, rfl⟩ := List.head?_eq_some_iff.mp hhead
      exact .keyed ⟨[], more, rfl⟩
    · have hwithin := List.mem_cons_of_mem ⟨position, .word key⟩
        (List.mem_cons_of_mem ⟨place, .equals⟩ hl)
      exact .listed List.suffix_rfl h hwithin hrest rfl hu hw
  | bare not_key value =>
    refine (takes_of_readValue value).imp ?_
    rintro l hl hrest w (⟨hhead, rfl⟩ | ⟨vs, rfl, u, hu, k, hw⟩)
    · have hplace : nextPosition stop tokens = l.position := by
        rw [nextPosition, hhead]
        rfl
      rw [hplace]
      exact .bare
    · exact .listed List.suffix_rfl h hl hrest rfl hu hw

/-! ## Expressions -/

lemma takes_of_readOpening {become : Lexeme → Value → Prop}
    (h : readOpening stop depth tokens = .ok (opening, rest)) : Takes tokens rest become := by
  obtain ⟨-, place, rfl⟩ := exists_of_readOpening h
  exact (Takes.skip (by simp)).trans (.skip (by simp))

/-- A field or a child of the body has the value as the given token. -/
def Body.Written (tokens : List Lexeme) (l : Lexeme) (w : Value) (b : Body) : Prop :=
  (∃ f ∈ b.fields, f.Written tokens l w) ∨ ∃ e ∈ b.children, e.Written tokens l w

lemma Body.Written.of_suffix {more : List Lexeme} (h : body.Written tokens l w)
    (hsuffix : tokens <:+ more) : body.Written more l w := by
  rcases h with ⟨f, hf, hl⟩ | ⟨e, he, path, e', f, hpath, hf, hl⟩
  · exact .inl ⟨f, hf, hl.of_suffix hsuffix⟩
  · exact .inr ⟨e, he, path, e', f, hpath, hf, hl.of_suffix hsuffix⟩

lemma takes_of_readBody (h : readBody stop fuel depth opening tokens = .ok (body, rest)) :
    Takes tokens rest fun l w => body.Written tokens l w := by
  induction fuel generalizing depth opening tokens body rest with
  | zero => simp [readBody] at h
  | succ fuel ih =>
    cases bodyRead_of_readBody h with
    | close token => exact .skip (by simp [token])
    -- the child is written in the tokens behind its head, the others behind the child
    | @child t tokens middle behind _ inner body others token opens within more =>
      have hopens (become : Lexeme → Value → Prop) : Takes (t :: tokens) middle become :=
        takes_of_readOpening opens
      have hmiddle := (hopens fun _ _ => True).suffix
      refine (hopens _).trans (((ih within).imp ?_).trans ((ih more).imp ?_))
      · intro l _ _ w hw
        exact .inr ⟨_, List.mem_cons_self, Expr.written_iff.mpr (hw.of_suffix hmiddle)⟩
      · intro l _ _ w hw
        rcases hw.of_suffix ((ih within).suffix.trans hmiddle) with hfield | ⟨e, he, hw⟩
        · exact .inl hfield
        · exact .inr ⟨e, List.mem_cons_of_mem _ he, hw⟩
    | field not_close not_open field more =>
      have htakes := takes_of_readField field
      refine (htakes.imp ?_).trans ((ih more).imp ?_)
      · intro l _ _ w hw
        exact .inl ⟨_, List.mem_cons_self, hw⟩
      · intro l _ _ w hw
        rcases hw.of_suffix htakes.suffix with ⟨f, hf, hw⟩ | hchild
        · exact .inl ⟨f, List.mem_cons_of_mem _ hf, hw⟩
        · exact .inr hchild

/-- **Every number of a text has become a value** of the expression that is read. -/
theorem Expr.written_of_ofText {text literal : String} {e : Expr} (he : Expr.ofText text = .ok e)
    (hl : l ∈ scan 0 text.toList) (hnumber : l.token = .number literal) :
    ∃ w, literalValue? literal.toList = some w ∧ e.Written (scan 0 text.toList) l w := by
  obtain ⟨opening, rest, body, hopening, hbody, rfl⟩ := exists_of_ofText he
  have hopens (become : Lexeme → Value → Prop) : Takes (scan 0 text.toList) rest become :=
    takes_of_readOpening hopening
  have htakes := (hopens _).trans (takes_of_readBody hbody)
  obtain ⟨w, hw, hwritten⟩ := htakes.numbers l hl List.not_mem_nil literal hnumber
  refine ⟨w, hw, Expr.written_iff.mpr ?_⟩
  exact hwritten.of_suffix (hopens fun _ _ => True).suffix

end TreeCode.Source
