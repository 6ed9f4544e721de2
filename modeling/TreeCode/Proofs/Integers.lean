import TreeCode.Proofs.Literals
import TreeCode.Proofs.Locating
import TreeCode.Proofs.Nearest
import TreeCode.Proofs.Rules

/-!
# Decimal integers keep their value

A decimal integer of a text that is parsed is kept in the node of the expression in whose field it
stands, as the constant, the parameter, the offset or the address of the node
(`Method.keeps_of_parse`).  All of them are signed 64-bit numbers first: an integer from 2^63 on is
taken for the negative number with the same word, and that one is kept.
-/

namespace TreeCode

open Source (Form Field Value Expr)

namespace Source

/-! ## Literals -/

/-- Decimal integers: digits only, behind a sign or none. -/
inductive WrittenInt : List Char → Int → Prop
  | unsigned {digits : List Char} (ne_nil : digits ≠ []) (digits_only : ∀ c ∈ digits, c.isDigit) :
      WrittenInt digits (Nat.ofDigitChars 10 digits 0)
  | plus {digits : List Char} (ne_nil : digits ≠ []) (digits_only : ∀ c ∈ digits, c.isDigit) :
      WrittenInt ('+' :: digits) (Nat.ofDigitChars 10 digits 0)
  | minus {digits : List Char} (ne_nil : digits ≠ []) (digits_only : ∀ c ∈ digits, c.isDigit) :
      WrittenInt ('-' :: digits) (-Nat.ofDigitChars 10 digits 0)

/-- The signed number that a literal is read as: the integer, or from 2^63 on the one with the same
64-bit word. -/
def signedWord (n : Int) : Int := if n < 2 ^ 63 then n else n - 2 ^ 64

lemma toInt_ofInt_of_range {n : Int} (hlow : -2 ^ 63 ≤ n) (hhigh : n < 2 ^ 64) :
    (Int64.ofInt n).toInt = signedWord n := by
  have hsize : (Int64.size : Int) = 2 ^ 64 := rfl
  rw [Int64.toInt_ofInt, signedWord, Int.bmod, hsize]
  split <;> split <;> omega

namespace WrittenInt

variable {literal : List Char} {n : Int} {w : Value}

/-- A decimal integer without its sign. -/
lemma exists_splitSign (h : WrittenInt literal n) : ∃ negative digits,
    splitSign literal = (negative, digits) ∧ digits ≠ [] ∧ (∀ c ∈ digits, c.isDigit) ∧
      n = if negative then -(Number.digitsValue digits : Int) else Number.digitsValue digits := by
  have hvalue (digits : List Char) : Nat.ofDigitChars 10 digits 0 = Number.digitsValue digits :=
    Nat.ofDigitChars_eq_foldl
  cases h with
  | plus ne_nil digits_only => exact ⟨false, _, rfl, ne_nil, digits_only, by rw [hvalue]; rfl⟩
  | minus ne_nil digits_only => exact ⟨true, _, rfl, ne_nil, digits_only, by rw [hvalue]; rfl⟩
  | unsigned ne_nil digits_only =>
    obtain ⟨c, cs, rfl⟩ := List.exists_cons_of_ne_nil ne_nil
    have hdigit := digits_only c List.mem_cons_self
    refine ⟨false, _, splitSign_of_isDigit ?_ ?_, ne_nil, digits_only, by rw [hvalue]; rfl⟩
    · rintro rfl
      cases hdigit
    · rintro rfl
      cases hdigit

/-- An integer is read if it is in the range of the signed or the unsigned 64-bit numbers. -/
lemma range_of_literalValue? (h : WrittenInt literal n) (hw : literalValue? literal = some w) :
    -2 ^ 63 ≤ n ∧ n < 2 ^ 64 ∧ ∃ x, w = .int x ∧ x.toInt = signedWord n := by
  obtain ⟨negative, digits, hsplit, hne, hdigits, hn⟩ := h.exists_splitSign
  rw [literalValue?_of_digits hsplit hne hdigits, Option.map_eq_some_iff] at hw
  obtain ⟨x, hx, rfl⟩ := hw
  obtain ⟨hlow, hhigh, rfl⟩ : -2 ^ 63 ≤ n ∧ n < 2 ^ 64 ∧ Int64.ofInt n = x := by
    rw [decimalInteger?, wordRange] at hx
    cases negative with
    | true =>
      simp only [if_true, Option.ite_none_right_eq_some, Option.some.injEq] at hn hx
      rw [hn]
      exact ⟨by omega, by omega, hx.2⟩
    | false =>
      simp only [Bool.false_eq_true, if_false, Option.ite_none_right_eq_some,
        Option.some.injEq] at hn hx
      rw [hn]
      exact ⟨by omega, by omega, hx.2⟩
  exact ⟨hlow, hhigh, _, rfl, toInt_ofInt_of_range hlow hhigh⟩

end WrittenInt

end Source

/-! ## Trees and the expressions they come from -/

/-- The node to which a path leads. -/
def Node.below? : Node → List Nat → Option Node
  | n, [] => some n
  | n, i :: path => n.children[i]?.bind fun child => child.below? path

/-- The node to which a path leads by way of a block and one of its trees. -/
def Method.below? (m : Method) : List Nat → Option Node
  | i :: j :: path => m.blocks[i]?.bind fun b => b.trees[j]?.bind fun n => n.below? path
  | _ => none

/-- The width of the integers that are constants of a type. -/
def DataType.constantBits : DataType → Nat
  | .int8 => 8
  | .int16 => 16
  | .int32 => 32
  | _ => 64

/-- The operand of the node that is no tree is an integer, that of a method with a number of
parameters: a constant of the node's type, the nearest floating point number to it, the index of a
parameter, an offset or the address of a call. -/
def Node.Keeps (params : Nat) (v : Int) (n : Node) : Prop :=
  match n.op, n.imm with
  | .const, .int x =>
    n.type.isFloating = false ∧ x.toInt = v ∧
      -2 ^ (n.type.constantBits - 1) ≤ v ∧ v < 2 ^ n.type.constantBits
  | .const, .float bits => n.type.isFloating ∧ Number.binary64.IsNearest bits.toNat v
  | .load, .parm i => 0 ≤ v ∧ v < params ∧ (i.toNat : Int) = v % 2 ^ 32
  | .loadIndirect, .offset o => o.toInt = v
  | .storeIndirect, .offset o => o.toInt = v
  | .call, .address a => 0 ≤ v ∧ (a.toNat : Int) = v
  | _, _ => False

namespace Source.Form

variable {f : Form} {key : String} {P : Int64 → Prop}

/-- The field is looked at: it has no key, or no field before it has the same one. -/
def Reads (f : Form) (field : Field) : Prop :=
  ∀ key, field.key = some key → f.field? key = some field

/-- An integer in the field with the key is all of its value, and has the property. -/
def IntegerOf (f : Form) (key : String) (P : Int64 → Prop) : Prop :=
  ∀ field, f.field? key = some field → ∀ k v, field.value.Holds k (.int v) → k = 0 ∧ P v

/-- An integer in a field that is looked at is all of its value, and has the property. -/
def Integers (f : Form) (P : Int64 → Prop) : Prop :=
  ∀ field ∈ f.fields, f.Reads field → ∀ k v, field.value.Holds k (.int v) → k = 0 ∧ P v

lemma Integers.of_checkFields {allowed : List String} (hfields : f.checkFields allowed = .ok ())
    (h : ∀ key ∈ allowed, f.IntegerOf key P) : f.Integers P := by
  intro field hfield hreads k v hv
  obtain ⟨key, hkey, heq⟩ := checkFields_eq_ok_iff.mp hfields field hfield
  exact h key hkey field (hreads key heq) k v hv

/-- A name is no integer, and no list. -/
lemma not_holds_of_name? {v : Value} {name : String} {k : Nat} {x : Int64}
    (h : v.name? = some name) : ¬v.Holds k (.int x) := by
  intro hx
  cases hx with
  | self => cases h
  | item => cases h

/-- What names a type is no integer. -/
lemma not_holds_of_ofValue {position k : Nat} {v : Value} {type : DataType} {x : Int64}
    (h : DataType.ofValue position v = .ok type) : ¬v.Holds k (.int x) := by
  unfold DataType.ofValue at h
  split at h
  · rename_i hname
    exact not_holds_of_name? hname
  · cases h

lemma integerOf_of_name? {name : Option String} (h : f.name? key = .ok name) :
    f.IntegerOf key P := by
  intro field hfield k v hv
  rw [name?, hfield] at h
  dsimp only at h
  split at h
  · rename_i hname
    exact (not_holds_of_name? hname hv).elim
  · cases h

lemma integerOf_of_type? {type : Option DataType} (h : f.type? key = .ok type) :
    f.IntegerOf key P := by
  intro field hfield k v hv
  rw [type?, hfield] at h
  obtain ⟨t, ht, -⟩ := Except.map_eq_ok_iff.mp h
  exact (not_holds_of_ofValue ht hv).elim

/-- In a list of types there is no integer. -/
lemma integerOf_of_types (h : ∀ field, f.field? key = some field → ∃ items types,
      field.value = .list items ∧ items.mapM (DataType.ofValue field.position) = .ok types) :
    f.IntegerOf key P := by
  intro field hfield k v hv
  obtain ⟨items, types, hitems, htypes⟩ := h field hfield
  rw [hitems] at hv
  cases hv with
  | item hitem hv =>
    obtain ⟨t, -, ht⟩ := exists_mem_of_forall₂ (Except.mapM_eq_ok_iff.mp htypes).flip _ hitem
    exact (not_holds_of_ofValue ht hv).elim

lemma integerOf_of_int? {found : Option (Int64 × Nat)} (h : f.int? key = .ok found)
    (hP : ∀ v position, found = some (v, position) → P v) : f.IntegerOf key P := by
  intro field hfield k v hv
  rw [int?, hfield] at h
  dsimp only at h
  split at h
  · rename_i x hx
    rw [hx] at hv
    cases hv
    exact ⟨rfl, hP _ _ (Except.ok.inj h).symm⟩
  · cases h

lemma integerOf_of_int {v : Int64} {position : Nat} (h : f.int key = .ok (v, position))
    (hP : P v) : f.IntegerOf key P := by
  obtain ⟨found, hfound, h⟩ := Except.bind_eq_ok_iff.mp h
  refine integerOf_of_int? hfound fun v' position' heq => ?_
  subst heq
  obtain ⟨rfl, -⟩ := Prod.mk.inj (Except.ok.inj h)
  exact hP

end Source.Form

/-! ## What a node keeps -/

namespace Scope

variable {s : Scope} {f : Form} {op : Opcode} {declared : Declared} {operands : List Node}
  {n : Node}

lemma integers_of_access {type : DataType} {o : Int32} {P : Int64 → Prop}
    (htype : accessType f declared = .ok type) (ho : accessOffset f = .ok o)
    (hP : ∀ v : Int64, o.toInt = v.toInt → P v) : f.Integers P := by
  have hoffset : f.IntegerOf "offset" P := by
    rcases accessOffset_eq_ok_iff.mp ho with ⟨hnone, -⟩ | ⟨v, position, hv, heq⟩
    · exact Form.integerOf_of_int? hnone nofun
    · refine Form.integerOf_of_int? hv fun v' position' hfound => ?_
      obtain ⟨rfl, -⟩ := Prod.mk.inj (Option.some.inj hfound)
      exact hP _ heq.symm
  cases declared with
  | known t =>
    obtain ⟨hfields, -⟩ := accessType_eq_ok_iff.mp htype
    exact .of_checkFields hfields (by simpa using hoffset)
  | someVector =>
    obtain ⟨hfields, htype, -⟩ := accessType_eq_ok_iff.mp htype
    exact .of_checkFields hfields (by simpa using ⟨hoffset, Form.integerOf_of_type? htype⟩)

/-- Parameters are counted from 0 on. -/
lemma range_of_param? {v : Int64} {type : DataType} (h : s.param? v = some type) :
    0 ≤ v.toInt ∧ v.toInt < s.params.length := by
  unfold param? at h
  split at h
  · cases h
  · have hindex := (List.getElem?_eq_some_iff.mp h).1
    omega

/-- The integers that fit a type are those in the range of its signed or its unsigned numbers. -/
lemma range_of_admits {type : DataType} {v : Int64} (h : type.admits v) :
    -2 ^ (type.constantBits - 1) ≤ v.toInt ∧ v.toInt < 2 ^ type.constantBits := by
  have hlow := v.le_toInt
  have hhigh := v.toInt_lt
  cases type with
  | int8 | int16 | int32 =>
    simp only [DataType.admits, Bool.and_eq_true, decide_eq_true_eq] at h
    simp only [DataType.constantBits]
    omega
  | _ =>
    simp only [DataType.constantBits]
    omega

/-- A node has the operands that it is given, and what is written as an integer is kept. -/
theorem keeps_of_rule (h : s.rule f op declared operands = .ok n) :
    n.children = operands ∧ f.Integers fun v => n.Keeps s.params.length v.toInt := by
  cases op with
  | load =>
    obtain ⟨hfields, -, v, position, hint, hparam, rfl⟩ := loadRule_eq_ok_iff.mp h
    refine ⟨rfl, .of_checkFields hfields ?_⟩
    rw [List.forall_mem_singleton]
    refine Form.integerOf_of_int hint ?_
    obtain ⟨hpos, hlt⟩ := range_of_param? hparam
    refine ⟨hpos, hlt, ?_⟩
    rw [UInt32.ofInt, UInt32.toNat_ofNat']
    omega
  | const =>
    obtain ⟨hkeys, -, field, hfield, imm, hliteral, rfl⟩ := constRule_eq_ok_iff.mp h
    -- no field has a key, so that there is no other field than the constant
    refine ⟨rfl, fun field' hmem _ k v hv => ?_⟩
    have hbare : field' ∈ f.positional := List.mem_filter.mpr ⟨hmem, by simp [hkeys field' hmem]⟩
    rw [hfield, List.mem_singleton] at hbare
    subst hbare
    generalize field'.value = value at hliteral hv
    cases hliteral with
    | float => cases hv
    | ofInt hfloat =>
      cases hv
      have hlow := v.le_toInt
      have hhigh := v.toInt_lt
      exact ⟨rfl, hfloat, Number.isNearest_ofInt (by omega)⟩
    | int hfloat hadmits =>
      cases hv
      exact ⟨rfl, hfloat, rfl, range_of_admits hadmits⟩
  | loadIndirect =>
    obtain ⟨t, ht, -, o, ho, rfl⟩ := loadIndirectRule_eq_ok_iff.mp h
    exact ⟨rfl, integers_of_access ht ho fun v hv => hv⟩
  | storeIndirect =>
    obtain ⟨t, ht, -, o, ho, rfl⟩ := storeIndirectRule_eq_ok_iff.mp h
    exact ⟨rfl, integers_of_access ht ho fun v hv => hv⟩
  | add | sub | mul | div =>
    cases declared with
    | known t =>
      obtain ⟨hfields, -, rfl⟩ := binaryRule_eq_ok_iff.mp h
      exact ⟨rfl, .of_checkFields hfields nofun⟩
    | someVector =>
      obtain ⟨hfields, lane, htype, -, -, rfl⟩ := vectorRule_eq_ok_iff.mp h
      refine ⟨rfl, .of_checkFields hfields ?_⟩
      rw [List.forall_mem_singleton]
      exact htype.elim Form.integerOf_of_type? Form.integerOf_of_type?
  | and | or | xor =>
    obtain ⟨hfields, -, rfl⟩ := binaryRule_eq_ok_iff.mp h
    exact ⟨rfl, .of_checkFields hfields nofun⟩
  | shl | shr | ushr | rol =>
    obtain ⟨hfields, -, rfl⟩ := shiftRule_eq_ok_iff.mp h
    exact ⟨rfl, .of_checkFields hfields nofun⟩
  | neg | sqrt =>
    obtain ⟨hfields, -, rfl⟩ := unaryRule_eq_ok_iff.mp h
    exact ⟨rfl, .of_checkFields hfields nofun⟩
  | ret =>
    obtain ⟨hfields, -, -, rfl⟩ := returnRule_eq_ok_iff.mp h
    exact ⟨rfl, .of_checkFields hfields nofun⟩
  | goto =>
    obtain ⟨hfields, -, index, htarget, rfl⟩ := gotoRule_eq_ok_iff.mp h
    obtain ⟨name, hname, -⟩ := target_eq_ok_iff.mp htarget
    exact ⟨rfl, .of_checkFields hfields (by simpa using Form.integerOf_of_name? hname)⟩
  | ifcmp c =>
    obtain ⟨hfields, -, index, htarget, rfl⟩ := compareRule_eq_ok_iff.mp h
    obtain ⟨name, hname, -⟩ := target_eq_ok_iff.mp htarget
    exact ⟨rfl, .of_checkFields hfields (by simpa using Form.integerOf_of_name? hname)⟩
  | call =>
    obtain ⟨hfields, v, position, hv, hpos, hargs, -, rfl⟩ := callRule_eq_ok_iff.mp h
    refine ⟨rfl, .of_checkFields hfields ?_⟩
    rw [List.forall_mem_cons, List.forall_mem_singleton]
    constructor
    · refine Form.integerOf_of_int hv ⟨hpos, ?_⟩
      rw [Int64.toNat_toUInt64_of_le (Int64.le_iff_toInt_le.mpr hpos), Int64.toNatClampNeg,
        Int.toNat_of_nonneg hpos]
    · refine Form.integerOf_of_types fun field hfield => ?_
      obtain ⟨items, hitems, htypes⟩ := hargs field hfield
      exact ⟨items, _, hitems, htypes⟩

/-- What the operands come from. -/
lemma forall₂_of_operands {es : List Expr} {ns : List Node} (h : s.operands es = .ok ns) :
    List.Forall₂ (fun e n => s.tree e = .ok n) es ns := by
  induction es generalizing ns with
  | nil =>
    cases h
    exact .nil
  | cons e es ih =>
    obtain ⟨n, ns', hn, -, hns, rfl⟩ := operands_cons_eq_ok_iff.mp h
    exact .cons hn (ih hns)

/-- **A path through an expression leads through its tree.** -/
theorem tree_below {e e' : Expr} {path : List Nat} (h : s.tree e = .ok n)
    (hpath : e.below? path = some e') : ∃ n', n.below? path = some n' ∧ s.tree e' = .ok n' := by
  induction path generalizing e n with
  | nil =>
    obtain rfl := Option.some.inj hpath
    exact ⟨n, rfl, h⟩
  | cons i path ih =>
    obtain ⟨f, es⟩ := e
    obtain ⟨child, hchild, hrest⟩ := Option.bind_eq_some_iff.mp hpath
    obtain ⟨op, declared, ns, -, hns, hrule⟩ := tree_eq_ok_iff.mp h
    obtain ⟨hchildren, -⟩ := keeps_of_rule hrule
    obtain ⟨c, hc, htree⟩ := exists_getElem?_of_forall₂ (forall₂_of_operands hns) hchild
    obtain ⟨n', hbelow, htree'⟩ := ih htree hrest
    exact ⟨n', by simp [Node.below?, hchildren, hc, hbelow], htree'⟩

end Scope

namespace Method

variable {e e' : Expr} {m : Method} {path : List Nat}

/-- A path leads to the head of a method or of a block, where there are no integers, or through a
tree. -/
lemma below_of_ofExpr (h : ofExpr e = .ok m) (hpath : e.below? path = some e') :
    e'.form.Integers (fun _ => False) ∨ ∃ n, m.below? path = some n ∧ m.scope.tree e' = .ok n := by
  obtain ⟨hmethod, -, -, -, hblocks⟩ := ofExpr_eq_ok_iff.mp h
  match path, hpath with
  | [], hpath =>
    obtain rfl := Option.some.inj hpath
    left
    refine .of_checkFields hmethod.fields ?_
    simp only [List.forall_mem_cons, List.not_mem_nil, false_imp_iff, implies_true, and_true]
    refine ⟨Form.integerOf_of_name? hmethod.name, Form.integerOf_of_type? hmethod.returnType,
      Form.integerOf_of_types fun field hfield => ?_⟩
    have hparams := hmethod.params
    rw [paramTypes, hfield] at hparams
    dsimp only at hparams
    split at hparams
    · rename_i items hitems
      exact ⟨items, _, hitems, hparams⟩
    · cases hparams
  | i :: path, hpath =>
    obtain ⟨block, hblock, hpath⟩ := Option.bind_eq_some_iff.mp hpath
    obtain ⟨b, hb, hform, htrees⟩ := exists_getElem?_of_forall₂ hblocks hblock
    match path, hpath with
    | [], hpath =>
      obtain rfl := Option.some.inj hpath
      left
      exact .of_checkFields hform.fields (by simpa using Form.integerOf_of_name? hform.name)
    | j :: path, hpath =>
      obtain ⟨tree, htree, hpath⟩ := Option.bind_eq_some_iff.mp hpath
      obtain ⟨n, hn, hofTree⟩ := exists_getElem?_of_forall₂ (Except.mapM_eq_ok_iff.mp htrees) htree
      obtain ⟨n', hbelow, hofTree'⟩ := Scope.tree_below hofTree hpath
      exact .inr ⟨n', by simp [below?, hb, hn, hbelow], hofTree'⟩

/-- **Decimal integers keep their value.**  A decimal integer of a text that is parsed is in the
range of the signed or the unsigned 64-bit numbers, and stands in a field of an expression.  If that
field is looked at, the integer is all of its value, and the node at the same place of the method
keeps it; of an integer from 2^63 on it keeps the one that is less by 2^64. -/
theorem keeps_of_parse {text literal : String} {l : Source.Lexeme} {n : Int}
    (h : parse text = .ok m) (hl : l ∈ Source.scan 0 text.toList)
    (hnumber : l.token = .number literal) (hn : Source.WrittenInt literal.toList n) :
    (-2 ^ 63 ≤ n ∧ n < 2 ^ 64) ∧ ∃ e path e' f x,
      Expr.ofText text = .ok e ∧ e.below? path = some e' ∧ f ∈ e'.form.fields ∧
        f.Written (Source.scan 0 text.toList) l (.int x) ∧ x.toInt = Source.signedWord n ∧
        (e'.form.Reads f → f.value = .int x ∧ ∃ node, m.below? path = some node ∧
          node.Keeps m.params.length (Source.signedWord n)) := by
  obtain ⟨e, he, hm⟩ := Except.bind_eq_ok_iff.mp h
  obtain ⟨w, hw, path, e', f, hpath, hf, hwritten⟩ := Expr.written_of_ofText he hl hnumber
  obtain ⟨hlow, hhigh, x, rfl, hx⟩ := hn.range_of_literalValue? hw
  refine ⟨⟨hlow, hhigh⟩, e, path, e', f, x, he, hpath, hf, hwritten, hx, fun hreads => ?_⟩
  obtain ⟨k, hholds⟩ := hwritten.exists_holds
  rcases below_of_ofExpr hm hpath with hnone | ⟨node, hnode, htree⟩
  · exact (hnone f hf hreads k x hholds).2.elim
  · obtain ⟨g, es⟩ := e'
    obtain ⟨op, declared, ns, -, -, hrule⟩ := Scope.tree_eq_ok_iff.mp htree
    obtain ⟨rfl, hkeeps⟩ := (Scope.keeps_of_rule hrule).2 f hf hreads k x hholds
    rw [hx] at hkeeps
    exact ⟨hholds.eq, node, hnode, hkeeps⟩

/-- A sum of a parameter and a negative constant. -/
def lessSevenText : String :=
  "(method return=Int32 args=[Int32] (block (ireturn (iadd (iload parm=0) (iconst -7)))))"

/-- The method of the text `lessSevenText`. -/
def lessSeven : Method :=
  ⟨none, .int32, [.int32], [⟨none, [.node .ret .int32 .none [.node .add .int32 .none
    [.node .load .int32 (.parm 0) [], .node .const .int32 (.int (-7)) []]]]⟩]⟩

set_option maxRecDepth 2000 in
lemma parse_lessSevenText : parse lessSevenText = .ok lessSeven := by
  cbv

set_option maxRecDepth 2000 in
lemma getElem?_scan_lessSevenText :
    (Source.scan 0 lessSevenText.toList)[24]? = some ⟨79, .number "-7"⟩ := by
  cbv

/-- The negative constant is kept. -/
theorem keeps_of_parse_lessSevenText :
    parse lessSevenText = .ok lessSeven ∧ ⟨79, .number "-7"⟩ ∈ Source.scan 0 lessSevenText.toList ∧
      Source.WrittenInt "-7".toList (-7) ∧ ∃ e path e' f x,
        Expr.ofText lessSevenText = .ok e ∧ e.below? path = some e' ∧ f ∈ e'.form.fields ∧
          f.Written (Source.scan 0 lessSevenText.toList) ⟨79, .number "-7"⟩ (.int x) ∧
          (e'.form.Reads f → f.value = .int x ∧ ∃ node, lessSeven.below? path = some node ∧
            node.Keeps 1 (-7)) := by
  have hl : ⟨79, .number "-7"⟩ ∈ Source.scan 0 lessSevenText.toList :=
    List.mem_of_getElem? getElem?_scan_lessSevenText
  have hn : Source.WrittenInt "-7".toList (-7) :=
    @Source.WrittenInt.minus ['7'] (by decide) (List.all_eq_true.mp rfl)
  obtain ⟨-, e, path, e', f, x, he, hpath, hf, hwritten, -, hkeeps⟩ :=
    keeps_of_parse parse_lessSevenText hl rfl hn
  exact ⟨parse_lessSevenText, hl, hn, e, path, e', f, x, he, hpath, hf, hwritten, hkeeps⟩

/-- A constant that is no signed 64-bit number. -/
def largeText : String :=
  "(method return=Double args=[] (block (dreturn (dconst 18446744073709551615))))"

/-- The method of the text `largeText`: its constant is -1. -/
def large : Method :=
  ⟨none, .double, [], [⟨none,
    [.node .ret .double .none [.node .const .double (.float 0xbff0000000000000) []]]⟩]⟩

set_option maxRecDepth 2000 in
lemma ofText_largeText : Expr.ofText largeText = .ok (.expr
    ⟨"method", 0, [⟨some "return", .ident "Double", 8⟩, ⟨some "args", .list [], 22⟩]⟩
    [.expr ⟨"block", 30, []⟩ [.expr ⟨"dreturn", 37, []⟩
      [.expr ⟨"dconst", 46, [⟨none, .int (-1), 54⟩]⟩ []]]]) := by
  cbv

lemma parse_largeText : parse largeText = .ok large := by
  have hone : Number.ofInt (-1) = 0xbff0000000000000 := by decide
  rw [parse, ofText_largeText, Except.ok_bind, large, ← hone]
  rfl

/-- A number that is nearer to the integer than -1 is 0. -/
lemma not_isNearest_minusOne :
    ¬Number.binary64.IsNearest 0xbff0000000000000 18446744073709551615 := by
  rintro ⟨v, hv, hnearest⟩
  have hminus : Number.binary64.decode 0xbff0000000000000 = .finite true (2 ^ 52) (-52) := by decide
  have hzero : Number.binary64.decode 0 = .finite false 0 (-1074) := by decide
  rw [hminus, Number.Numeral.value?, Option.some.injEq] at hv
  have hv' : v = -1 := by
    rw [← hv]
    norm_num
  subst hv'
  have hother := hnearest 0 0 (by simp [hzero, Number.Numeral.value?])
  norm_num [abs_of_nonpos] at hother

set_option maxRecDepth 2000 in
lemma getElem?_scan_largeText :
    (Source.scan 0 largeText.toList)[15]? = some ⟨54, .number "18446744073709551615"⟩ := by
  cbv

/-- **Not every constant is the nearest number**: the largest word is kept as -1. -/
theorem constant_of_largeText :
    ⟨54, .number "18446744073709551615"⟩ ∈ Source.scan 0 largeText.toList ∧
      Source.WrittenInt "18446744073709551615".toList 18446744073709551615 ∧
        parse largeText = .ok large ∧
          large.below? [0, 0, 0] = some (.node .const .double (.float 0xbff0000000000000) []) ∧
            ¬Number.binary64.IsNearest 0xbff0000000000000 18446744073709551615 := by
  refine ⟨List.mem_of_getElem? getElem?_scan_largeText, ?_, parse_largeText, rfl,
    not_isNearest_minusOne⟩
  exact @Source.WrittenInt.unsigned "18446744073709551615".toList (by decide)
    (List.all_eq_true.mp rfl)

end Method

end TreeCode
