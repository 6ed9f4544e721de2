import Mathlib.Tactic.IntervalCases
import TreeCode.Proofs.Rules
import TreeCode.Proofs.Wording
import TreeCode.VectorKernel

/-!
# The texts of kernels

The text of a kernel is read as the method that loads two vectors, combines them and stores the
result (`Kernel.parse_kernelText`).  It is written differently from what is printed for the method:
without the offsets of the loads, and with the name of the method as a word.  So it has a phrase of
its own, which is followed from the text through the tokens to the trees.
-/

namespace TreeCode

open Source

/-- The opcode of a lane-wise operation. -/
def VectorOp.opcode : VectorOp → Opcode
  | add => .add
  | sub => .sub
  | mul => .mul
  | div => .div

/-- An expression that spells a phrase has its head, its fields and its children. -/
lemma Source.Expr.spells_iff {e : Expr} {head : String} {clauses : List Clause}
    {ps : List Phrase} : e.Spells (.phrase head clauses ps) ↔
      ∃ position fields es, e = .expr ⟨head, position, fields⟩ es ∧
        List.Forall₂ Field.Spells fields clauses ∧ List.Forall₂ Spells es ps := by
  constructor
  · rintro @⟨⟨_, position, fields⟩, es, _, _, _, rfl, hfields, hchildren⟩
    exact ⟨position, fields, es, rfl, hfields, hchildren⟩
  · rintro ⟨position, fields, es, rfl, hfields, hchildren⟩
    exact .expr rfl hfields hchildren

lemma Source.Field.spells_iff {f : Field} {key : Option String} {v : Value} (item : Item)
    (hvalue : item.value? = some v) :
    f.Spells ⟨key, item⟩ ↔ ∃ position, f = ⟨key, v, position⟩ := by
  obtain ⟨key', v', position⟩ := f
  constructor
  · rintro ⟨rfl, hv⟩
    obtain rfl := Option.some.inj (hvalue.symm.trans hv)
    exact ⟨position, rfl⟩
  · rintro ⟨position', hf⟩
    obtain ⟨rfl, rfl, rfl⟩ := Field.mk.inj hf
    exact ⟨rfl, hvalue⟩

/-- What stands on a line of its own, behind some spaces. -/
lemma Source.Piece.line (spaces : Nat) {cs : List Char} {ts : List Token} (h : Lexes cs ts) :
    Piece ('\n' :: (List.replicate spaces ' ' ++ cs)) ts := by
  refine Piece.blank (c := '\n') rfl ?_
  induction spaces with
  | zero => exact h
  | succ spaces ih => exact ih.blank (c := ' ') rfl

namespace Kernel

variable {op : VectorOp} {l : Lane} {e : Expr}

/-- A parameter of a kernel. -/
def address (index : UInt32) : Node := .node .load .address (.parm index) []

/-- The vector at the address that is passed as a parameter. -/
def operand (l : Lane) (index : UInt32) : Node :=
  .node .loadIndirect (.vector l) (.offset 0) [address index]

/-- The combination of the two operands. -/
def combination (op : VectorOp) (l : Lane) : Node :=
  .node op.opcode (.vector l) .none [operand l 1, operand l 2]

/-- The tree that stores the combination. -/
def storing (op : VectorOp) (l : Lane) : Node :=
  .node .storeIndirect (.vector l) (.offset 0) [address 0, combination op l]

/-- The end of a kernel. -/
def returning : Node := .node .ret .noType .none []

/-- The name of a kernel. -/
def name (op : VectorOp) : String := "vector_" ++ String.ofList (op.mnemonic.toList.drop 1)

/-- The method of a kernel text. -/
def method (op : VectorOp) (l : Lane) : Method :=
  ⟨some (name op), .noType, [.address, .address, .address], [⟨none, [storing op l, returning]⟩]⟩

/-! ## The text of a kernel -/

/-- A parameter as it is written. -/
def addressPhrase (index : Nat) : Phrase :=
  .phrase "aload" [⟨some "parm", .number (toString index)⟩] []

/-- An operand as it is written. -/
def operandPhrase (l : Lane) (index : Nat) : Phrase :=
  .phrase "vloadi" [⟨some "type", .word (DataType.vector l).name⟩] [addressPhrase index]

/-- The combination as it is written. -/
def combinationPhrase (op : VectorOp) (l : Lane) : Phrase :=
  .phrase op.mnemonic [] [operandPhrase l 1, operandPhrase l 2]

/-- The tree that stores the combination, as it is written. -/
def storingPhrase (op : VectorOp) (l : Lane) : Phrase :=
  .phrase "vstorei" [⟨some "type", .word (DataType.vector l).name⟩, ⟨some "offset", .number "0"⟩]
    [addressPhrase 0, combinationPhrase op l]

/-- A kernel as it is written. -/
def phrase (op : VectorOp) (l : Lane) : Phrase :=
  .phrase "method" [⟨some "name", .word (name op)⟩, ⟨some "return", .word "NoType"⟩,
      ⟨some "args", .words ["Address", "Address", "Address"]⟩]
    [.phrase "block" [] [storingPhrase op l, .phrase "return" [] []]]

/-- What the trees of a kernel can refer to. -/
def scope : Scope := ⟨[.address, .address, .address], .noType, [none]⟩

lemma tree_address {index : Nat} (hindex : index < 3) (h : e.Spells (addressPhrase index)) :
    scope.tree e = .ok (address (UInt32.ofNat index)) := by
  obtain ⟨_, fields, es, rfl, hfields, hchildren⟩ := Expr.spells_iff.mp h
  obtain ⟨_, _, hfield, hnil, rfl⟩ := List.forall₂_cons_right_iff.mp hfields
  obtain ⟨_, rfl⟩ := (Field.spells_iff (.number _) (value?_natural (by omega))).mp hfield
  obtain rfl := List.forall₂_nil_right_iff.mp hnil
  obtain rfl := List.forall₂_nil_right_iff.mp hchildren
  interval_cases index <;> cbv

lemma tree_operand {index : Nat} (hindex : index < 3) (h : e.Spells (operandPhrase l index)) :
    scope.tree e = .ok (operand l (UInt32.ofNat index)) := by
  obtain ⟨_, fields, es, rfl, hfields, hchildren⟩ := Expr.spells_iff.mp h
  obtain ⟨_, _, hfield, hnil, rfl⟩ := List.forall₂_cons_right_iff.mp hfields
  obtain ⟨_, rfl⟩ := (Field.spells_iff (.word _) rfl).mp hfield
  obtain rfl := List.forall₂_nil_right_iff.mp hnil
  obtain ⟨e, _, haddress, hnil, rfl⟩ := List.forall₂_cons_right_iff.mp hchildren
  obtain rfl := List.forall₂_nil_right_iff.mp hnil
  have htree := tree_address hindex haddress
  rw [Scope.tree, Scope.operands, htree, Scope.operands]
  cases l <;> cbv

lemma tree_combination (hop : op ≠ .div) (h : e.Spells (combinationPhrase op l)) :
    scope.tree e = .ok (combination op l) := by
  obtain ⟨_, fields, es, rfl, hfields, hchildren⟩ := Expr.spells_iff.mp h
  obtain rfl := List.forall₂_nil_right_iff.mp hfields
  obtain ⟨_, _, hleft, hrest, rfl⟩ := List.forall₂_cons_right_iff.mp hchildren
  obtain ⟨_, _, hright, hnil, rfl⟩ := List.forall₂_cons_right_iff.mp hrest
  obtain rfl := List.forall₂_nil_right_iff.mp hnil
  rw [Scope.tree, Scope.operands, tree_operand (by decide) hleft, Scope.operands,
    tree_operand (by decide) hright, Scope.operands]
  cases op <;> cases l <;> first | exact absurd rfl hop | cbv

lemma tree_storing (hop : op ≠ .div) (h : e.Spells (storingPhrase op l)) :
    scope.tree e = .ok (storing op l) := by
  obtain ⟨_, fields, es, rfl, hfields, hchildren⟩ := Expr.spells_iff.mp h
  obtain ⟨_, _, htype, hrest, rfl⟩ := List.forall₂_cons_right_iff.mp hfields
  obtain ⟨_, _, hoffset, hnil, rfl⟩ := List.forall₂_cons_right_iff.mp hrest
  obtain ⟨_, rfl⟩ := (Field.spells_iff (.word _) rfl).mp htype
  obtain ⟨_, rfl⟩ := (Field.spells_iff (.number _) (value?_natural (n := 0) (by decide))).mp hoffset
  obtain rfl := List.forall₂_nil_right_iff.mp hnil
  obtain ⟨_, _, hout, hrest, rfl⟩ := List.forall₂_cons_right_iff.mp hchildren
  obtain ⟨_, _, hvalue, hnil, rfl⟩ := List.forall₂_cons_right_iff.mp hrest
  obtain rfl := List.forall₂_nil_right_iff.mp hnil
  rw [Scope.tree, Scope.operands, tree_address (by decide) hout, Scope.operands,
    tree_combination hop hvalue, Scope.operands]
  cases op <;> cases l <;> cbv

lemma tree_returning (h : e.Spells (.phrase "return" [] [])) : scope.tree e = .ok returning := by
  obtain ⟨_, fields, es, rfl, hfields, hchildren⟩ := Expr.spells_iff.mp h
  obtain rfl := List.forall₂_nil_right_iff.mp hfields
  obtain rfl := List.forall₂_nil_right_iff.mp hchildren
  cbv

/-- The fields of the method expression. -/
lemma isMethod_of_spells {fields : List Field} (position : Nat)
    (h : List.Forall₂ Field.Spells fields [⟨some "name", .word (name op)⟩,
      ⟨some "return", .word "NoType"⟩, ⟨some "args", .words ["Address", "Address", "Address"]⟩]) :
    (Form.mk "method" position fields).IsMethod (method op l) := by
  obtain ⟨_, _, hname, hrest, rfl⟩ := List.forall₂_cons_right_iff.mp h
  obtain ⟨_, _, hreturn, hlast, rfl⟩ := List.forall₂_cons_right_iff.mp hrest
  obtain ⟨_, _, hargs, hnil, rfl⟩ := List.forall₂_cons_right_iff.mp hlast
  obtain ⟨_, rfl⟩ := (Field.spells_iff (.word _) rfl).mp hname
  obtain ⟨_, rfl⟩ := (Field.spells_iff (.word _) rfl).mp hreturn
  obtain ⟨_, rfl⟩ := (Field.spells_iff (.words _) rfl).mp hargs
  obtain rfl := List.forall₂_nil_right_iff.mp hnil
  cases op <;> exact ⟨rfl, by cbv, by cbv, by cbv, by cbv⟩

lemma ofExpr_of_spells (hop : op ≠ .div) (h : e.Spells (phrase op l)) :
    Method.ofExpr e = .ok (method op l) := by
  obtain ⟨position, fields, es, rfl, hfields, hchildren⟩ := Expr.spells_iff.mp h
  obtain ⟨_, _, hblock, hnil, rfl⟩ := List.forall₂_cons_right_iff.mp hchildren
  obtain rfl := List.forall₂_nil_right_iff.mp hnil
  obtain ⟨_, fields', es', rfl, hnone, htrees⟩ := Expr.spells_iff.mp hblock
  obtain rfl := List.forall₂_nil_right_iff.mp hnone
  obtain ⟨first, _, hstoring, hrest, rfl⟩ := List.forall₂_cons_right_iff.mp htrees
  obtain ⟨second, _, hreturning, hnil', rfl⟩ := List.forall₂_cons_right_iff.mp hrest
  obtain rfl := List.forall₂_nil_right_iff.mp hnil'
  have hbody : scope.trees [first, second] = .ok [storing op l, returning] := by
    simp [Scope.trees, tree_storing hop hstoring, tree_returning hreturning]
  exact Method.ofExpr_eq_ok_iff.mpr ⟨isMethod_of_spells position hfields, by simp [method],
    List.cons_ne_nil _ _, .nil, .cons ⟨⟨rfl, rfl, rfl⟩, hbody⟩ .nil⟩

end Kernel

end TreeCode
