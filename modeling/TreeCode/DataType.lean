/-!
# Data types

The types a tree can have: nothing at all, integers of four widths, two floating point widths,
machine addresses, and 128-bit vectors made of lanes.  A type knows its name in text, which bank
of registers holds its values, and, for vectors, how the sixteen bytes are divided into lanes.
-/

namespace TreeCode

/-- The element type of one lane of a 128-bit vector. -/
inductive Lane where
  | i8
  | i16
  | i32
  | i64
  | f32
  | f64
  deriving DecidableEq, Repr

namespace Lane

/-- The lane types, narrowest integer first. -/
def all : List Lane := [i8, i16, i32, i64, f32, f64]

/-- Short name of a lane type, as diagnostics show it. -/
def name : Lane → String
  | i8 => "I8"
  | i16 => "I16"
  | i32 => "I32"
  | i64 => "I64"
  | f32 => "F32"
  | f64 => "F64"

/-- Width of a lane in bytes. -/
def bytes : Lane → Nat
  | i8 => 1
  | i16 => 2
  | i32 | f32 => 4
  | i64 | f64 => 8

/-- Whether the lane holds a floating point number. -/
def isFloat : Lane → Bool
  | f32 | f64 => true
  | _ => false

end Lane

/-- Size in bytes of every vector type. -/
def vectorBytes : Nat := 16

namespace Lane

/-- How many lanes of this type a vector has. -/
def count (lane : Lane) : Nat := vectorBytes / lane.bytes

/-- The lanes of a vector fill it exactly. -/
theorem count_mul_bytes (lane : Lane) : lane.count * lane.bytes = vectorBytes := by
  cases lane <;> rfl

end Lane

/-- The type of a tree, a parameter or a result. -/
inductive DataType where
  | noType
  | int8
  | int16
  | int32
  | int64
  | float
  | double
  | address
  | vector (lane : Lane)
  deriving DecidableEq, Repr

namespace DataType

/-- Every type, in the order in which names are looked up. -/
def all : List DataType :=
  [noType, int8, int16, int32, int64, float, double, address] ++ Lane.all.map vector

/-- The name of a type in text and in diagnostics. -/
def name : DataType → String
  | noType => "NoType"
  | int8 => "Int8"
  | int16 => "Int16"
  | int32 => "Int32"
  | int64 => "Int64"
  | float => "Float"
  | double => "Double"
  | address => "Address"
  | vector .i8 => "VectorInt8"
  | vector .i16 => "VectorInt16"
  | vector .i32 => "VectorInt32"
  | vector .i64 => "VectorInt64"
  | vector .f32 => "VectorFloat"
  | vector .f64 => "VectorDouble"

/-- The type of a name, if there is one. -/
def ofName? (s : String) : Option DataType := all.find? fun t => t.name == s

/-- Held in a general purpose register. -/
def isIntegral : DataType → Bool
  | int8 | int16 | int32 | int64 | address => true
  | _ => false

/-- A scalar floating point type. -/
def isFloating : DataType → Bool
  | float | double => true
  | _ => false

/-- Uses 64-bit integer operations. -/
def isWide : DataType → Bool
  | int64 | address => true
  | _ => false

/-- The lane type of a vector type. -/
def lane? : DataType → Option Lane
  | vector lane => some lane
  | _ => none

/-- Whether the type is a vector type. -/
def isVector (t : DataType) : Bool := t.lane?.isSome

/-- The vector types are those with lanes. -/
theorem isVector_iff {t : DataType} : t.isVector = true ↔ ∃ l, t = vector l := by
  cases t <;> simp [isVector, lane?]

theorem lane?_of_isFloating {t : DataType} (h : t.isFloating = true) : t.lane? = none := by
  cases t <;> first | rfl | cases h

/-- The scalar type of one lane. -/
def ofLane : Lane → DataType
  | .i8 => int8
  | .i16 => int16
  | .i32 => int32
  | .i64 => int64
  | .f32 => float
  | .f64 => double

/-- The scalar type of one lane of a vector type. -/
def element? (t : DataType) : Option DataType := t.lane?.map ofLane

/-- Number of lanes; a scalar counts as one. -/
def lanes : DataType → Nat
  | vector lane => lane.count
  | _ => 1

/-- The letter that marks a type in an opcode's name. -/
def letter : DataType → String
  | noType => ""
  | int8 => "b"
  | int16 => "s"
  | int32 => "i"
  | int64 => "l"
  | float => "f"
  | double => "d"
  | address => "a"
  | vector _ => "v"

/-- Every type is in the list. -/
theorem mem_all (t : DataType) : t ∈ all := by
  cases t with
  | vector lane => cases lane <;> decide
  | _ => decide

/-- A type is found under its own name. -/
theorem ofName?_name (t : DataType) : ofName? t.name = some t := by
  cases t with
  | vector lane => cases lane <;> decide
  | _ => decide

end DataType

/-- Lane-wise arithmetic on vectors. -/
inductive VectorOp where
  | add
  | sub
  | mul
  | div
  deriving DecidableEq, Repr

namespace VectorOp

/-- The vector operations. -/
def all : List VectorOp := [add, sub, mul, div]

/-- The opcode of a vector operation in text. -/
def mnemonic : VectorOp → String
  | add => "vadd"
  | sub => "vsub"
  | mul => "vmul"
  | div => "vdiv"

end VectorOp

end TreeCode
