import Mathlib.Algebra.Ring.Nat
import Mathlib.Data.List.Forall2
import Mathlib.Tactic.Common
import TreeCode.Typing

/-!
# Well-typed methods

The typing rules as a description of the methods that obey them.  `Opcode.Accepts` is the typing
table, `Immediate.Fits` says which operand that is no tree belongs to an opcode, and
`Method.WellTyped` asks both of every node.  What a method owes to the text it was read from, the
names that its branches go to and the argument types that its calls declare, is
`Method.WrittenBy`.
-/

namespace TreeCode

open Source (Form Field Value Expr)

namespace DataType

/-- Neither no type at all nor a vector type. -/
def isScalar : DataType → Bool
  | noType | vector _ => false
  | _ => true

/-- The integers that arithmetic works on. -/
def isWord : DataType → Bool
  | int32 | int64 => true
  | _ => false

/-- The scalar types that methods and calls return. -/
def isReturned : DataType → Bool
  | int32 | int64 | float | double | address => true
  | _ => false

lemma isScalar_of_isReturned {t : DataType} (h : t.isReturned) : t.isScalar := by
  cases t <;> simp_all [isReturned, isScalar]

lemma isScalar_iff {t : DataType} : t.isScalar ↔ t ≠ .noType ∧ t.isVector = false := by
  cases t <;> simp [isScalar, isVector, lane?]

lemma lane?_of_isWord {t : DataType} (h : t.isWord) : t.lane? = none := by
  cases t <;> first | rfl | cases h

lemma isFloating_of_isWord {t : DataType} (h : t.isWord) : t.isFloating = false := by
  cases t <;> first | rfl | cases h

end DataType

/-- The typing table: whether a node of an opcode and a type takes operands of the given types. -/
def Opcode.Accepts (op : Opcode) (type : DataType) (operands : List DataType) : Prop :=
  match op with
  | .load | .const => type.isScalar ∧ operands = []
  | .loadIndirect => type ≠ .noType ∧ operands = [.address]
  | .storeIndirect => type ≠ .noType ∧ operands = [.address, type]
  | .add | .sub | .mul =>
    (type.isWord ∨ type.isFloating ∨ type.isVector) ∧ operands = [type, type]
  | .div =>
    (type.isFloating ∨ type = .vector .f32 ∨ type = .vector .f64) ∧ operands = [type, type]
  | .and | .or | .xor => type.isWord ∧ operands = [type, type]
  | .shl | .shr | .ushr | .rol => type.isWord ∧ operands = [type, .int32]
  | .neg => type.isWord ∧ operands = [type]
  | .sqrt => type.isFloating ∧ operands = [type]
  | .ret => (type = .noType ∧ operands = []) ∨ (type.isReturned ∧ operands = [type])
  | .goto => type = .noType ∧ operands = []
  | .ifcmp _ => type.isWord ∧ operands = [type, type]
  | .call => (type = .noType ∨ type.isReturned) ∧ ∀ t ∈ operands, t.isScalar

/-- The operand that is no tree is the one that the opcode calls for, and in its range. -/
def Immediate.Fits (s : Scope) (op : Opcode) (type : DataType) (imm : Immediate) : Prop :=
  match op with
  | .load => ∃ i, imm = .parm i ∧ s.params[i.toNat]? = some type
  | .const =>
    (type.isFloating ∧ ∃ bits, imm = .float bits) ∨
      (type.isFloating = false ∧ ∃ v, imm = .int v ∧ type.admits v)
  | .loadIndirect | .storeIndirect => ∃ o, imm = .offset o
  | .goto | .ifcmp _ => ∃ t name, imm = .target t ∧ s.labels[t]? = some (some name)
  | .call => ∃ a, imm = .address a ∧ a.toNat < 2 ^ 63
  | _ => imm = .none

/-- A tree whose nodes all obey the typing table.  Only its root may be one that has no value. -/
inductive Node.WellTyped (s : Scope) : Node → Prop
  | node {op : Opcode} {type : DataType} {imm : Immediate} {children : List Node}
      (accepts : op.Accepts type (children.map Node.type))
      (fits : imm.Fits s op type)
      (returns : op = .ret → type = s.returnType)
      (values : ∀ c ∈ children, c.producesValue)
      (operands : ∀ c ∈ children, WellTyped s c) :
      WellTyped s (.node op type imm children)

/-- What the trees of a method can refer to. -/
def Method.scope (m : Method) : Scope := ⟨m.params, m.returnType, m.blocks.map Block.name⟩

/-- A method that obeys the typing rules. -/
structure Method.WellTyped (m : Method) : Prop where
  blocks_ne_nil : m.blocks ≠ []
  params_typed : .noType ∉ m.params
  names_nodup : (m.blocks.filterMap Block.name).Nodup
  trees_typed : ∀ b ∈ m.blocks, ∀ n ∈ b.trees, n.WellTyped m.scope

/-! ## Methods and the text they are read from -/

/-- The block at an index is the only one of that name. -/
def Scope.Names (s : Scope) (name : String) (index : Nat) : Prop :=
  ∀ i, s.labels[i]? = some (some name) ↔ i = index

/-- The operand that is no tree is the one that the fields of an expression give. -/
def Immediate.WrittenBy (s : Scope) (f : Form) : Immediate → Prop
  | .none => True
  | .parm i => ∃ v position, f.int "parm" = .ok (v, position) ∧ v.toInt = i.toNat
  | .offset o =>
    f.int? "offset" = .ok Option.none ∧ o = 0 ∨
      ∃ v position, f.int? "offset" = .ok (some (v, position)) ∧ v.toInt = o.toInt
  | .int v => ∃ field, f.positional = [field] ∧ field.value = .int v
  | .float bits => ∃ field, f.positional = [field] ∧
      (field.value = .float bits ∨ ∃ v, field.value = .int v ∧ bits = Number.ofInt v.toInt)
  | .target t => ∃ name, f.name? "target" = .ok (some name) ∧ s.Names name t
  | .address a => ∃ v position, f.int "address" = .ok (v, position) ∧ v.toInt = a.toNat

/-- The argument types that an expression lists, if it does, are those of the operands. -/
def Node.ArgumentsWrittenBy (f : Form) (children : List Node) : Prop :=
  ∀ field, f.field? "args" = some field → ∃ items, field.value = .list items ∧
    items.mapM (DataType.ofValue field.position) = .ok (children.map Node.type)

/-- A tree that an expression stands for: node by node the opcode is the one of the head, the
operands come from the fields, and a branch goes to the block that its field names. -/
inductive Node.WrittenBy (s : Scope) : Expr → Node → Prop
  | node {form : Form} {es : List Expr} {op : Opcode} {declared : Declared} {type : DataType}
      {imm : Immediate} {children : List Node}
      (head : Opcode.decode? form.head = some (op, declared))
      (immediate : imm.WrittenBy s form)
      (arguments : op = .call → Node.ArgumentsWrittenBy form children)
      (operands : List.Forall₂ (WrittenBy s) es children) :
      WrittenBy s (.expr form es) (.node op type imm children)

/-- A block that an expression stands for. -/
def Block.WrittenBy (s : Scope) (e : Expr) (b : Block) : Prop :=
  e.form.name? "name" = .ok b.name ∧ List.Forall₂ (Node.WrittenBy s) e.children b.trees

/-- A method that an expression stands for. -/
def Method.WrittenBy (e : Expr) (m : Method) : Prop :=
  List.Forall₂ (Block.WrittenBy m.scope) e.children m.blocks

end TreeCode
