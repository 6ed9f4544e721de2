import TreeCode.DataType

/-!
# Opcodes and their names

An opcode says what a node does; together with the node's type it gives the name that stands in
text.  `Opcode.decode?` reads such a name.  A vector opcode other than a load or store leaves its
type open, since the type then comes from a field or from the operands.
-/

namespace TreeCode

/-- Signed comparison of a compare-and-branch. -/
inductive Condition where
  | eq
  | ne
  | lt
  | ge
  | gt
  | le
  deriving DecidableEq, Repr

namespace Condition

/-- The six conditions. -/
def all : List Condition := [eq, ne, lt, ge, gt, le]

/-- The condition as the end of an opcode's name. -/
def suffix : Condition → String
  | eq => "eq"
  | ne => "ne"
  | lt => "lt"
  | ge => "ge"
  | gt => "gt"
  | le => "le"

/-- The condition that holds exactly when this one does not. -/
def invert : Condition → Condition
  | eq => ne
  | ne => eq
  | lt => ge
  | ge => lt
  | gt => le
  | le => gt

/-- The condition with a given suffix, if there is one. -/
def ofSuffix? (s : String) : Option Condition := all.find? fun c => c.suffix == s

/-- The truth of a comparison of two signed numbers. -/
def holds : Condition → Int → Int → Bool
  | eq, a, b => a == b
  | ne, a, b => a != b
  | lt, a, b => decide (a < b)
  | ge, a, b => decide (b ≤ a)
  | gt, a, b => decide (b < a)
  | le, a, b => decide (a ≤ b)

@[simp] theorem invert_invert (c : Condition) : c.invert.invert = c := by cases c <;> rfl

/-- Inverting a condition negates it. -/
theorem holds_invert (c : Condition) (a b : Int) : c.invert.holds a b = !c.holds a b := by
  cases c <;> simp [invert, holds, bne, ← decide_not]

end Condition

/-- What a node does. -/
inductive Opcode where
  /-- The value of a parameter. -/
  | load
  | const
  | loadIndirect
  | storeIndirect
  | add
  | sub
  | mul
  | div
  | and
  | or
  | xor
  | shl
  /-- Arithmetic shift right. -/
  | shr
  /-- Logical shift right. -/
  | ushr
  /-- Rotate left. -/
  | rol
  | neg
  | sqrt
  | ret
  | goto
  | ifcmp (condition : Condition)
  | call
  deriving DecidableEq, Repr

namespace Opcode

/-- Ends a block: nothing may follow it there. -/
def isTerminator : Opcode → Bool
  | ret | goto => true
  | _ => false

/-- The lane-wise operation of an opcode that has one. -/
def vectorOp? : Opcode → Option VectorOp
  | add => some .add
  | sub => some .sub
  | mul => some .mul
  | div => some .div
  | _ => none

/-- The opcodes that are written as a type letter and a stem. -/
def stemmed : List Opcode :=
  [load, const, loadIndirect, storeIndirect, add, sub, mul, div, and, or, xor, shl, shr, ushr, rol,
    neg, sqrt, ret, call]

/-- An opcode's name without its type. -/
def stem : Opcode → String
  | load => "load"
  | const => "const"
  | loadIndirect => "loadi"
  | storeIndirect => "storei"
  | add => "add"
  | sub => "sub"
  | mul => "mul"
  | div => "div"
  | and => "and"
  | or => "or"
  | xor => "xor"
  | shl => "shl"
  | shr => "shr"
  | ushr => "ushr"
  | rol => "rol"
  | neg => "neg"
  | sqrt => "sqrt"
  | ret => "return"
  | goto => "goto"
  | ifcmp _ => "cmp"
  | call => "call"

/-- The name of an opcode at a type, such as `iadd` or `ificmplt`. -/
def mnemonic (op : Opcode) (type : DataType) : String :=
  match op with
  | ifcmp c => "if" ++ type.letter ++ "cmp" ++ c.suffix
  | goto => "goto"
  | op => type.letter ++ op.stem

/-- Whether a scalar type may carry the opcode. -/
def legalAt (op : Opcode) (type : DataType) : Bool :=
  match op with
  | load | const | loadIndirect | storeIndirect => true
  | add | sub | mul =>
    match type with
    | .int32 | .int64 | .float | .double => true
    | _ => false
  | div | sqrt => type.isFloating
  | and | or | xor | shl | shr | ushr | rol | neg =>
    match type with
    | .int32 | .int64 => true
    | _ => false
  | ret | call =>
    match type with
    | .int32 | .int64 | .float | .double | .address => true
    | _ => false
  | goto | ifcmp _ => false

/-- Whether the opcode may be written for vectors. -/
def legalOnVectors : Opcode → Bool
  | loadIndirect | storeIndirect | add | sub | mul | div => true
  | _ => false

end Opcode

/-- What a name in text declares about the type of a node. -/
inductive Declared where
  /-- The name settles the type. -/
  | known (type : DataType)
  /-- A vector opcode: a field or the operands settle the type. -/
  | someVector
  deriving DecidableEq, Repr

namespace Opcode

/-- The scalar types by their letters. -/
def letters : List (Char × DataType) :=
  [('b', .int8), ('s', .int16), ('i', .int32), ('l', .int64), ('f', .float), ('d', .double),
    ('a', .address)]

/-- Reads what follows `if` in the name of a compare-and-branch. -/
def decodeCompare? : List Char → Option (Opcode × Declared)
  | 'i' :: 'c' :: 'm' :: 'p' :: suffix =>
    (Condition.ofSuffix? (String.ofList suffix)).map fun c => (ifcmp c, .known .int32)
  | 'l' :: 'c' :: 'm' :: 'p' :: suffix =>
    (Condition.ofSuffix? (String.ofList suffix)).map fun c => (ifcmp c, .known .int64)
  | _ => none

/-- Reads a type letter and a stem. -/
def decodeStemmed? (letter : Char) (stem : List Char) : Option (Opcode × Declared) := do
  let op ← stemmed.find? fun op => op.stem == String.ofList stem
  if letter = 'v' then
    if op.legalOnVectors then some (op, .someVector) else none
  else
    let type ← letters.lookup letter
    if op.legalAt type then some (op, .known type) else none

/-- Reads an opcode's name.  A name that begins with `if` can only be a compare-and-branch. -/
def decode? (name : String) : Option (Opcode × Declared) :=
  match name with
  | "goto" => some (goto, .known .noType)
  | "return" => some (ret, .known .noType)
  | "call" => some (call, .known .noType)
  | _ =>
    match name.toList with
    | 'i' :: 'f' :: rest => decodeCompare? rest
    | letter :: stem => decodeStemmed? letter stem
    | [] => none

end Opcode

end TreeCode
