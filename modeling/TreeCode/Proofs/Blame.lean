import TreeCode.Proofs.Agreement
import TreeCode.Proofs.Rules

/-!
# Where a text is refused

Whatever is wrong with a text is reported at the place of a parenthesis, a field or a token of the
text, or at its end.  All of these lie between two characters of the text (`Method.blames_parse`).
With what is known of reading bytes, every text is parsed safely (`Method.parsedSafely`).

A computation refuses within some places (`Within`) if every place that it reports is one of them;
the predicate says something about its results too, so that it goes through sequences.  The places
of tokens go into expressions, and from there into what the rules report.
-/

namespace TreeCode

open Source (Form Field Value Expr Lexeme Opening Body)

/-! ## Refusals within places -/

section Within

variable {P : Nat → Prop} {α β : Type} {Q Q' : α → Prop} {R : β → Prop}

/-- What is refused at a place is so at one of the given places, and results are as described. -/
def Within (P : Nat → Prop) (Q : α → Prop) : Except ParseError α → Prop
  | .ok a => Q a
  | .error (.malformed position _) => P position
  | .error (.typeMismatch ..) => True

/-- What is refused at a place is so at one of the given places. -/
abbrev Blames (P : Nat → Prop) (x : Except ParseError α) : Prop := Within P (fun _ => True) x

lemma Within.position {x : Except ParseError α} {position : Nat} {defect : Defect}
    (h : Within P Q x) (hx : x = .error (.malformed position defect)) : P position := by
  subst hx
  exact h

lemma Within.bind {x : Except ParseError α} {f : α → Except ParseError β} (h : Within P Q x)
    (hf : ∀ a, Q a → Within P R (f a)) : Within P R (x >>= f) := by
  match x, h with
  | .ok a, h => exact hf a h
  | .error (.malformed _ _), h => exact h
  | .error (.typeMismatch ..), _ => trivial

lemma Within.map {x : Except ParseError α} {f : α → β} (h : Within P Q x)
    (hf : ∀ a, Q a → R (f a)) : Within P R (x.map f) := by
  match x, h with
  | .ok a, h => exact hf a h
  | .error (.malformed _ _), h => exact h
  | .error (.typeMismatch ..), _ => trivial

lemma blames_forM {l : List α} {f : α → Except ParseError Unit}
    (h : ∀ a ∈ l, Blames P (f a)) : Blames P (l.forM f) := by
  induction l with
  | nil => trivial
  | cons a l ih =>
    obtain ⟨ha, hl⟩ := List.forall_mem_cons.mp h
    exact ha.bind fun _ _ => ih hl

lemma blames_mapM {l : List α} {f : α → Except ParseError β}
    (h : ∀ a ∈ l, Blames P (f a)) : Blames P (l.mapM f) := by
  induction l with
  | nil => trivial
  | cons a l ih =>
    obtain ⟨ha, hl⟩ := List.forall_mem_cons.mp h
    rw [List.mapM_cons]
    exact ha.bind fun _ _ => (ih hl).bind fun _ _ => trivial

end Within

variable {P : Nat → Prop}

/-! ## The reader -/

namespace Source

/-- All tokens are at the given places. -/
def Placed (P : Nat → Prop) (tokens : List Lexeme) : Prop := ∀ t ∈ tokens, P t.position

/-- The expression, its fields and all expressions below it are at the given places. -/
inductive Expr.Placed (P : Nat → Prop) : Expr → Prop
  | expr {form : Form} {es : List Expr} (position : P form.position)
      (fields : ∀ field ∈ form.fields, P field.position) (children : ∀ e ∈ es, Placed P e) :
      Placed P (.expr form es)

lemma Expr.Placed.children {P : Nat → Prop} {e : Expr} (h : e.Placed P) :
    ∀ child ∈ e.children, child.Placed P := by
  cases h with
  | expr _ _ children => exact children

/-- What stands in an expression is at the given places. -/
structure Body.Placed (P : Nat → Prop) (b : Body) : Prop where
  fields : ∀ field ∈ b.fields, P field.position
  children : ∀ e ∈ b.children, e.Placed P

variable {stop fuel depth start : Nat} {first : Bool} {tokens : List Lexeme} {t : Lexeme}

lemma Placed.of_cons (h : Placed P (t :: tokens)) : P t.position ∧ Placed P tokens :=
  List.forall_mem_cons.mp h

lemma Placed.nextPosition (h : Placed P tokens) (hstop : P stop) :
    P (nextPosition stop tokens) := by
  cases tokens with
  | nil => exact hstop
  | cons t tokens => exact h.of_cons.1

lemma blames_readAtom (h : P t.position) : Blames P (readAtom t) := by
  unfold readAtom
  split
  case h_4 => split <;> first | exact h | trivial
  all_goals first | exact h | trivial

lemma within_readList (h : Placed P tokens) (hstart : P start) :
    Within P (fun r => Placed P r.2) (readList start fuel first tokens) := by
  induction fuel generalizing start first tokens with
  | zero => exact hstart
  | succ fuel ih =>
    cases tokens with
    | nil => exact hstart
    | cons t tokens =>
      obtain ⟨ht, htokens⟩ := h.of_cons
      rw [readList]
      split
      · exact htokens
      · split
        · exact ht
        · exact ih htokens hstart
      · exact (ih htokens ht).bind fun _ hmiddle => (ih hmiddle hstart).bind fun _ hrest => hrest
      · exact (blames_readAtom ht).bind fun _ _ => (ih htokens hstart).bind fun _ hrest => hrest

lemma within_readValue (h : Placed P tokens) (hstop : P stop) :
    Within P (fun r => Placed P r.2) (readValue stop fuel tokens) := by
  cases tokens with
  | nil => exact hstop
  | cons t tokens =>
    obtain ⟨ht, htokens⟩ := h.of_cons
    rw [readValue]
    split
    · exact (within_readList htokens ht).bind fun _ hrest => hrest
    · exact (blames_readAtom ht).bind fun _ _ => htokens

lemma within_readField (h : Placed P tokens) (hstop : P stop) :
    Within P (fun r => P r.1.position ∧ Placed P r.2) (readField stop fuel tokens) := by
  unfold readField
  split
  · obtain ⟨hkey, hequals⟩ := h.of_cons
    exact (within_readValue hequals.of_cons.2 hstop).bind fun _ hrest => ⟨hkey, hrest⟩
  · exact (within_readValue h hstop).bind fun _ hrest => ⟨h.nextPosition hstop, hrest⟩

lemma within_readOpening (h : Placed P tokens) (hstop : P stop) :
    Within P (fun r => P r.1.position ∧ Placed P r.2) (readOpening stop depth tokens) := by
  unfold readOpening
  split
  · obtain ⟨hopen, hrest⟩ := h.of_cons
    split
    · exact hopen
    · split
      · exact ⟨hopen, hrest.of_cons.2⟩
      · exact hrest.nextPosition hstop
  · exact h.nextPosition hstop

lemma within_readBody {opening : Opening} (h : Placed P tokens) (hstop : P stop) :
    Within P (fun r => r.1.Placed P ∧ Placed P r.2) (readBody stop fuel depth opening tokens) := by
  induction fuel generalizing depth opening tokens with
  | zero => exact hstop
  | succ fuel ih =>
    cases tokens with
    | nil => exact hstop
    | cons t tokens =>
      rw [readBody]
      split
      · exact ⟨⟨by simp, by simp⟩, h.of_cons.2⟩
      · refine (within_readOpening h hstop).bind fun inner hinner => ?_
        refine (ih hinner.2).bind fun body hbody => ?_
        refine (ih hbody.2).bind fun others hothers => ?_
        have hchild : (Expr.expr ⟨inner.1.head, inner.1.position, body.1.fields⟩
            body.1.children).Placed P := .expr hinner.1 hbody.1.fields hbody.1.children
        exact ⟨⟨hothers.1.fields, List.forall_mem_cons.mpr ⟨hchild, hothers.1.children⟩⟩,
          hothers.2⟩
      · refine (within_readField h hstop).bind fun field hfield => ?_
        refine (ih hfield.2).bind fun others hothers => ?_
        exact ⟨⟨List.forall_mem_cons.mpr ⟨hfield.1, hothers.1.fields⟩, hothers.1.children⟩,
          hothers.2⟩

/-- What is read and what is refused is where the tokens are, or at the end. -/
lemma within_ofTokens (h : Placed P tokens) (hstop : P stop) :
    Within P (Expr.Placed P) (Expr.ofTokens stop tokens) := by
  refine (within_readOpening h hstop).bind fun opening hopening => ?_
  refine (within_readBody hopening.2 hstop).bind fun body hbody => ?_
  obtain ⟨body, rest⟩ := body
  cases rest with
  | nil => exact .expr hopening.1 hbody.1.fields hbody.1.children
  | cons t rest => exact hbody.2.of_cons.1

end Source

/-! ## Fields -/

namespace Source.Form

/-- The form and its fields are at the given places. -/
structure Placed (P : Nat → Prop) (f : Form) : Prop where
  position : P f.position
  fields : ∀ field ∈ f.fields, P field.position

variable {f : Form} {key : String} {field : Field} {operands : List Node}

namespace Placed

lemma field? (h : f.Placed P) (hfield : f.field? key = some field) : P field.position :=
  h.fields field (List.mem_of_find?_eq_some hfield)

lemma blames_checkFields (h : f.Placed P) (allowed : List String) :
    Blames P (f.checkFields allowed) := by
  refine blames_forM fun field hfield => ?_
  split
  · split
    · trivial
    · exact h.fields field hfield
  · exact h.fields field hfield

lemma blames_name? (h : f.Placed P) (key : String) : Blames P (f.name? key) := by
  unfold Form.name?
  split
  · trivial
  · rename_i field hfield
    split
    · trivial
    · exact h.field? hfield

lemma within_int? (h : f.Placed P) (key : String) :
    Within P (fun r => ∀ v position, r = some (v, position) → P position) (f.int? key) := by
  unfold Form.int?
  split
  · exact nofun
  · rename_i field hfield
    split
    · rintro v position ⟨⟩
      exact h.field? hfield
    · exact h.field? hfield

lemma within_int (h : f.Placed P) (key : String) : Within P (fun r => P r.2) (f.int key) := by
  refine (h.within_int? key).bind fun found hfound => ?_
  cases found with
  | none => exact h.position
  | some found => exact hfound _ _ rfl

end Placed

end Source.Form

lemma blames_ofValue {position : Nat} (h : P position) (v : Value) :
    Blames P (DataType.ofValue position v) := by
  unfold DataType.ofValue
  split
  · split
    · trivial
    · exact h
  · exact h

lemma Source.Expr.Placed.form {e : Expr} (h : e.Placed P) : e.form.Placed P := by
  cases h with
  | expr position fields => exact ⟨position, fields⟩

namespace Source.Form.Placed

variable {f : Form} {operands : List Node}

lemma blames_type? (h : f.Placed P) (key : String) : Blames P (f.type? key) := by
  unfold Form.type?
  split
  · trivial
  · rename_i field hfield
    exact (blames_ofValue (h.field? hfield) field.value).map fun _ _ => trivial

lemma blames_expect (f : Form) (operand : Node) (type : DataType) :
    Blames P (f.expect operand type) := by
  unfold Form.expect
  split <;> trivial

lemma blames_noOperand (h : f.Placed P) : Blames P (f.noOperand operands) := by
  unfold Form.noOperand
  split
  · trivial
  · exact h.position

lemma blames_oneOperand (h : f.Placed P) : Blames P (f.oneOperand operands) := by
  unfold Form.oneOperand
  split
  · trivial
  · exact h.position

lemma blames_twoOperands (h : f.Placed P) : Blames P (f.twoOperands operands) := by
  unfold Form.twoOperands
  split
  · trivial
  · exact h.position

end Source.Form.Placed

/-! ## Rules -/

namespace Scope

variable {s : Scope} {f : Form} {operands : List Node} {type : DataType} {op : Opcode}

open Source.Form.Placed

lemma blames_target (h : f.Placed P) : Blames P (s.target f) := by
  refine (h.blames_name? "target").bind fun label _ => ?_
  cases label with
  | none => exact h.position
  | some label =>
    dsimp only
    split
    · trivial
    · exact h.position

lemma blames_loadRule (h : f.Placed P) : Blames P (s.loadRule f type operands) := by
  refine (h.blames_checkFields _).bind fun _ _ => h.blames_noOperand.bind fun _ _ => ?_
  refine (h.within_int "parm").bind fun index hindex => ?_
  dsimp only
  split
  · exact hindex
  · split <;> trivial

lemma blames_constRule (h : f.Placed P) : Blames P (constRule f type operands) := by
  unfold constRule
  dsimp only
  split
  · rename_i keyed hkeyed
    exact h.fields keyed (List.mem_of_find?_eq_some hkeyed)
  · refine h.blames_noOperand.bind fun _ _ => ?_
    have hpositional : ∀ field ∈ f.positional, P field.position := fun field hfield =>
      h.fields field (List.mem_of_mem_filter hfield)
    split
    · exact h.position
    · rename_i field extra others hfields
      exact hpositional extra (by simp [hfields])
    · rename_i field hfields
      have hfield := hpositional field (by simp [hfields])
      split
      · split
        · trivial
        · exact hfield
      · trivial
      · trivial
      · exact hfield

lemma blames_accessType (h : f.Placed P) (declared : Declared) :
    Blames P (accessType f declared) := by
  cases declared with
  | known type => exact (h.blames_checkFields _).bind fun _ _ => trivial
  | someVector =>
    refine (h.blames_checkFields _).bind fun _ _ => (h.blames_type? "type").bind fun type _ => ?_
    cases type with
    | none => exact h.position
    | some type =>
      dsimp only
      split <;> trivial

lemma blames_accessOffset (h : f.Placed P) : Blames P (accessOffset f) := by
  refine (h.within_int? "offset").bind fun found hfound => ?_
  cases found with
  | none => trivial
  | some found =>
    dsimp only
    split
    · trivial
    · exact hfound _ _ rfl

lemma blames_loadIndirectRule (h : f.Placed P) (declared : Declared) :
    Blames P (loadIndirectRule f declared operands) := by
  refine (blames_accessType h declared).bind fun type _ => h.blames_oneOperand.bind fun a _ => ?_
  exact (blames_expect f a _).bind fun _ _ => (blames_accessOffset h).bind fun _ _ => trivial

lemma blames_storeIndirectRule (h : f.Placed P) (declared : Declared) :
    Blames P (storeIndirectRule f declared operands) := by
  refine (blames_accessType h declared).bind fun type _ => h.blames_twoOperands.bind fun ab _ => ?_
  refine (blames_expect f _ _).bind fun _ _ => (blames_expect f _ _).bind fun _ _ => ?_
  exact (blames_accessOffset h).bind fun _ _ => trivial

lemma blames_binaryRule (h : f.Placed P) : Blames P (binaryRule f op type operands) := by
  refine (h.blames_checkFields _).bind fun _ _ => h.blames_twoOperands.bind fun ab _ => ?_
  exact (blames_expect f _ _).bind fun _ _ => (blames_expect f _ _).bind fun _ _ => trivial

lemma blames_vectorRule (h : f.Placed P) : Blames P (vectorRule f op operands) := by
  refine (h.blames_checkFields _).bind fun _ _ => h.blames_twoOperands.bind fun ab _ => ?_
  refine (h.blames_type? "type").bind fun type _ => ?_
  dsimp only
  split
  · trivial
  · split
    · trivial
    · exact (blames_expect f _ _).bind fun _ _ => (blames_expect f _ _).bind fun _ _ => trivial

lemma blames_shiftRule (h : f.Placed P) : Blames P (shiftRule f op type operands) := by
  refine (h.blames_checkFields _).bind fun _ _ => h.blames_twoOperands.bind fun ab _ => ?_
  exact (blames_expect f _ _).bind fun _ _ => (blames_expect f _ _).bind fun _ _ => trivial

lemma blames_unaryRule (h : f.Placed P) : Blames P (unaryRule f op type operands) := by
  refine (h.blames_checkFields _).bind fun _ _ => h.blames_oneOperand.bind fun a _ => ?_
  exact (blames_expect f a _).bind fun _ _ => trivial

lemma blames_returnRule (h : f.Placed P) : Blames P (s.returnRule f type operands) := by
  refine (h.blames_checkFields _).bind fun _ _ => ?_
  dsimp only
  split
  · trivial
  · split
    · exact h.blames_noOperand.bind fun _ _ => trivial
    · refine h.blames_oneOperand.bind fun value _ => ?_
      exact (blames_expect f value _).bind fun _ _ => trivial

lemma blames_gotoRule (h : f.Placed P) : Blames P (s.gotoRule f operands) := by
  refine (h.blames_checkFields _).bind fun _ _ => h.blames_noOperand.bind fun _ _ => ?_
  exact (blames_target h).bind fun _ _ => trivial

lemma blames_compareRule (h : f.Placed P) (c : Condition) :
    Blames P (s.compareRule f c type operands) := by
  refine (h.blames_checkFields _).bind fun _ _ => h.blames_twoOperands.bind fun ab _ => ?_
  refine (blames_expect f _ _).bind fun _ _ => (blames_expect f _ _).bind fun _ _ => ?_
  exact (blames_target h).bind fun _ _ => trivial

lemma blames_expectArguments {position : Nat} (f : Form) (h : P position) (items : List Value)
    (operands : List Node) : Blames P (expectArguments f position items operands) := by
  induction items generalizing operands with
  | nil => trivial
  | cons item items ih =>
    cases operands with
    | nil => trivial
    | cons operand operands =>
      refine (blames_ofValue h item).bind fun type _ => (blames_expect f operand type).bind ?_
      exact fun _ _ => ih operands

lemma blames_callRule (h : f.Placed P) : Blames P (callRule f type operands) := by
  refine (h.blames_checkFields _).bind fun _ _ => ?_
  refine (h.within_int "address").bind fun address hat => ?_
  dsimp only
  split
  · exact hat
  · split
    · rename_i field hfield
      have hplace := h.field? hfield
      split
      · rename_i items hitems
        split
        · trivial
        · refine (blames_expectArguments f hplace items operands).bind fun _ _ => ?_
          split <;> trivial
      · exact hplace
    · split <;> trivial

/-- Whatever a rule finds wrong is at a place of the form. -/
lemma blames_rule (h : f.Placed P) (declared : Declared) :
    Blames P (s.rule f op declared operands) := by
  cases op with
  | load => exact blames_loadRule h
  | const => exact blames_constRule h
  | loadIndirect => exact blames_loadIndirectRule h declared
  | storeIndirect => exact blames_storeIndirectRule h declared
  | add | sub | mul | div =>
    cases declared with
    | known type => exact blames_binaryRule h
    | someVector => exact blames_vectorRule h
  | and | or | xor => exact blames_binaryRule h
  | shl | shr | ushr | rol => exact blames_shiftRule h
  | neg | sqrt => exact blames_unaryRule h
  | ret => exact blames_returnRule h
  | goto => exact blames_gotoRule h
  | ifcmp c => exact blames_compareRule h c
  | call => exact blames_callRule h

mutual

lemma blames_tree : ∀ {e : Expr}, e.Placed P → Blames P (s.tree e)
  | .expr form children, .expr position fields hchildren => by
    have h : form.Placed P := ⟨position, fields⟩
    rw [tree]
    split
    · exact position
    · exact (blames_operands hchildren).bind fun _ _ => blames_rule h _

lemma blames_operands : ∀ {es : List Expr}, (∀ e ∈ es, e.Placed P) → Blames P (s.operands es)
  | [], _ => trivial
  | e :: es, h => by
    obtain ⟨he, hes⟩ := List.forall_mem_cons.mp h
    rw [operands]
    refine (blames_tree he).bind fun n _ => ?_
    dsimp only
    split
    · cases he with
      | expr position => exact position
    · exact (blames_operands hes).bind fun _ _ => trivial

end

end Scope

/-! ## Methods -/

lemma blames_blockLabels {seen : List (Option String)} {es : List Expr}
    (h : ∀ e ∈ es, e.Placed P) : Blames P (blockLabels seen es) := by
  induction es generalizing seen with
  | nil => trivial
  | cons e es ih =>
    obtain ⟨he, hes⟩ := List.forall_mem_cons.mp h
    have hform := he.form
    rw [blockLabels]
    dsimp only
    split
    · exact hform.position
    · refine (hform.blames_checkFields _).bind fun _ _ => ?_
      refine (hform.blames_name? "name").bind fun label _ => ?_
      split
      · split
        · exact hform.position
        · exact ih hes
      · exact ih hes

lemma blames_paramTypes {f : Form} (h : f.Placed P) : Blames P (paramTypes f) := by
  unfold paramTypes
  split
  · trivial
  · rename_i field hfield
    split
    · exact blames_mapM fun v _ => blames_ofValue (h.field? hfield) v
    · exact h.field? hfield

namespace Method

/-- Whatever is wrong with an expression is so at a place of it or of what is below it. -/
lemma blames_ofExpr {e : Expr} (h : e.Placed P) : Blames P (ofExpr e) := by
  have hform := h.form
  rw [ofExpr]
  split
  · exact hform.position
  refine (hform.blames_checkFields _).bind fun _ _ => ?_
  refine (hform.blames_name? "name").bind fun name _ => ?_
  refine (hform.blames_type? "return").bind fun type _ => ?_
  cases type with
  | none => exact hform.position
  | some type =>
    simp only [Except.ok_bind]
    refine (blames_paramTypes hform).bind fun params _ => ?_
    split
    · exact hform.position
    split
    · exact hform.position
    refine (blames_blockLabels h.children).bind fun labels _ => ?_
    refine (blames_mapM fun block hblock => ?_).bind fun bodies _ => trivial
    have hblock' := h.children block hblock
    exact blames_mapM fun tree htree => Scope.blames_tree (hblock'.children tree htree)

end Method

/-! ## Places of a text -/

open Source

namespace Source.Cursor

variable {text : String} {c : Cursor} {l : Lexeme}

/-- A token that is scanned stands where the cursor is, or it is scanned from further on. -/
lemma Ahead.mem_lexemes (h : c.Ahead) (hin : c.In text) (hl : l ∈ c.lexemes) :
    l.position = c.position ∨
      ∃ c' : Cursor, c'.In text ∧ c'.lexemes.length < c.lexemes.length ∧ l ∈ c'.lexemes := by
  cases h with
  | nothing at_end => simp [lexemes, at_end, scan] at hl
  | token token =>
    rw [token.lexemes_eq] at hl
    rcases List.mem_cons.mp hl with rfl | hlater
    · exact .inl rfl
    · exact .inr ⟨_, token.cursor_in hin, token.before.fewer, hlater⟩
  | openText rest_eq no_quote =>
    rw [lexemes_of_openText rest_eq no_quote] at hl
    obtain rfl := List.mem_singleton.mp hl
    exact .inl rfl
  | other rest_eq blank comment word number quote punctuation =>
    have hlexemes := lexemes_of_other rest_eq blank comment word number quote punctuation
    rw [hlexemes] at hl ⊢
    rcases List.mem_cons.mp hl with rfl | hlater
    · exact .inl rfl
    · exact .inr ⟨_, (spans_after _ _ rest_eq).cursor_in hin, Nat.lt_succ_self _, hlater⟩

/-- Every token is scanned at a cursor of the text. -/
lemma In.exists_of_mem (hin : c.In text) (hl : l ∈ c.lexemes) :
    ∃ c' : Cursor, c'.In text ∧ l.position = c'.position := by
  -- all tokens but the first one are scanned from a cursor with fewer tokens
  induction hn : c.lexemes.length using Nat.strong_induction_on generalizing c with
  | h n ih =>
    obtain ⟨c₁, hskips⟩ := exists_skips hin
    rw [hskips.trivia.lexemes_eq] at hl hn
    rcases hskips.ahead.mem_lexemes hskips.cursor_in hl with hhere | ⟨c₂, hin₂, hfewer, hlater⟩
    · exact ⟨c₁, hskips.cursor_in, hhere⟩
    · exact ih _ (hn ▸ hfewer) hin₂ hlater rfl

end Source.Cursor

/-- The place lies within the text and between two of its characters. -/
structure Source.Boundary (text : String) (position : Nat) : Prop where
  le : position ≤ text.utf8ByteSize
  isValid : String.Pos.Raw.IsValid text ⟨position⟩

lemma Source.Cursor.In.boundary {text : String} {c : Cursor} (h : c.In text) :
    Boundary text c.position :=
  ⟨h.position_le, h.isValid⟩

/-- Whatever is wrong with a text is so at a boundary. -/
lemma Method.blames_parse (text : String) : Blames (Boundary text) (parse text) := by
  have htokens : Source.Placed (Boundary text) (scan 0 text.toList) := fun l hl => by
    obtain ⟨c, hin, hposition⟩ := (Cursor.in_start text).exists_of_mem hl
    exact hposition ▸ hin.boundary
  have hend : Boundary text (utf8Length text.toList) :=
    Cursor.In.boundary (c := ⟨text.toList, []⟩) (List.append_nil _).symm
  exact (Source.within_ofTokens htokens hend).bind fun e he => blames_ofExpr he

/-! ## Safety -/

/-- A text is read up to its end, and nothing but blanks and comments is behind the expression. -/
lemma Source.Bytewise.exists_of_read {text : String} {room : Nat} {e : Expr}
    (h : Bytewise.read text room = .ok e) :
    ∃ next last, Bytewise.readExpr text room maxDepth 0 = .ok (e, next) ∧
      Bytewise.skipTrivia text next = .ok last ∧ text.utf8ByteSize ≤ last := by
  obtain ⟨⟨e', next⟩, hexpr, h⟩ := Except.bind_eq_ok_iff.mp h
  obtain ⟨last, hskip, h⟩ := Except.bind_eq_ok_iff.mp h
  split at h
  · cases h
  · rename_i hlast
    cases h
    exact ⟨next, last, hexpr, hskip, Nat.le_of_not_lt hlast⟩

/-- No operand is looked up. -/
lemma Source.Form.lookUp_zero (f : Form) (operands : List Node) :
    Bytewise.lookUp f 0 operands =
      ((f.noOperand operands).map fun _ => []).mapError .refused := by
  rw [Bytewise.lookUp_eq]
  cases operands <;> rfl

/-- The only operand is looked up. -/
lemma Source.Form.lookUp_one (f : Form) (operands : List Node) :
    Bytewise.lookUp f 1 operands =
      ((f.oneOperand operands).map fun a => [a]).mapError .refused := by
  rw [Bytewise.lookUp_eq]
  match operands with
  | [] | [_] => rfl
  | _ :: _ :: operands => rw [if_neg (by simp)]; rfl

/-- Both operands are looked up. -/
lemma Source.Form.lookUp_two (f : Form) (operands : List Node) :
    Bytewise.lookUp f 2 operands =
      ((f.twoOperands operands).map fun ab => [ab.1, ab.2]).mapError .refused := by
  rw [Bytewise.lookUp_eq]
  match operands with
  | [] | [_] | [_, _] => rfl
  | _ :: _ :: _ :: operands => rw [if_neg (by simp)]; rfl

/-- Parsing a text never goes wrong in any other way than by a refusal.  The refusal is at a
boundary of the text, or the types of an expression that has been read do not match. -/
structure Method.ParsedSafely (text : String) (room : Nat) : Prop where
  /-- Reading bytes comes to what the method is parsed from. -/
  read_eq : Bytewise.read text room = (Expr.ofText text).mapError .refused
  /-- What is built from the bytes is the method of the text, or it is refused like the text. -/
  parse_eq : (Bytewise.read text room >>= fun e => (ofExpr e).mapError .refused) =
    (parse text).mapError .refused
  /-- No loop is stuck, no character is split, and what is wrong is so at a place. -/
  refused : ∀ failure, Bytewise.read text room = .error failure →
    ∃ position defect, failure = .refused (.malformed position defect)
  /-- No head is cut inside a character. -/
  decode_eq : ∀ head, Bytewise.decode head = .ok (Opcode.decode? head)
  /-- Operands are there when they are looked up. -/
  noOperand : ∀ (f : Form) operands, Bytewise.lookUp f 0 operands =
    ((f.noOperand operands).map fun _ => []).mapError .refused
  oneOperand : ∀ (f : Form) operands, Bytewise.lookUp f 1 operands =
    ((f.oneOperand operands).map fun a => [a]).mapError .refused
  twoOperands : ∀ (f : Form) operands, Bytewise.lookUp f 2 operands =
    ((f.twoOperands operands).map fun ab => [ab.1, ab.2]).mapError .refused
  /-- What is wrong at a place is so within the text and between two characters. -/
  boundary : ∀ position defect, parse text = .error (.malformed position defect) →
    Boundary text position
  /-- Types are compared once the whole text has been read. -/
  mismatch : ∀ opcode expected found, parse text = .error (.typeMismatch opcode expected found) →
    ∃ e next last, Bytewise.readExpr text room maxDepth 0 = .ok (e, next) ∧
      Bytewise.skipTrivia text next = .ok last ∧ text.utf8ByteSize ≤ last ∧
      ofExpr e = .error (.typeMismatch opcode expected found)

/-- **Every text is parsed safely.**  With room for the lists that are open at a time, its bytes are
read without a loop that is stuck or a character that is split, and what is refused at a place is
refused at a boundary of the text. -/
theorem Method.parsedSafely (text : String) (room : Nat)
    (hroom : bracketDepth 0 (scan 0 text.toList) ≤ room) : ParsedSafely text room where
  read_eq := Bytewise.read_eq hroom
  parse_eq := by
    rw [Bytewise.read_eq hroom, parse]
    cases Expr.ofText text <;> rfl
  refused failure hfailure := by
    rw [Bytewise.read_eq hroom, Except.mapError_eq_error_iff] at hfailure
    obtain ⟨err, herr, rfl⟩ := hfailure
    obtain ⟨position, defect, rfl⟩ := refusesAtPlace_ofText text err herr
    exact ⟨position, defect, rfl⟩
  decode_eq := Bytewise.decode_eq
  noOperand := Form.lookUp_zero
  oneOperand := Form.lookUp_one
  twoOperands := Form.lookUp_two
  boundary _ _ hparse := (blames_parse text).position hparse
  mismatch opcode expected found hparse := by
    rcases Except.bind_eq_error_iff.mp hparse with htext | ⟨e, he, hexpr⟩
    · obtain ⟨_, _, h⟩ := refusesAtPlace_ofText text _ htext
      cases h
    · have hread : Bytewise.read text room = .ok e := by
        rw [Bytewise.read_eq hroom, he]
        rfl
      obtain ⟨next, last, hexpr', hskip, hlast⟩ := Bytewise.exists_of_read hread
      exact ⟨e, next, last, hexpr', hskip, hlast, hexpr⟩

/-- A text with characters of more than one byte in a comment, in a name and where a value should
begin. -/
def Method.foreignText : String := "(method ; straße\n name=\"größe\" args=[Int32] €"

/-- The text has one list and is parsed safely. -/
theorem Method.parsedSafely_foreignText :
    bracketDepth 0 (scan 0 foreignText.toList) ≤ 1 ∧ ParsedSafely foreignText 1 := by
  have hroom : bracketDepth 0 (scan 0 foreignText.toList) ≤ 1 := by cbv
  exact ⟨hroom, parsedSafely foreignText 1 hroom⟩

end TreeCode
