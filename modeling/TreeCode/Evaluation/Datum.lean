import TreeCode.Bytes
import TreeCode.Instr

/-!
# Values of trees

A value is what a tree of a type other than a vector type leaves in a register: 32 or 64 bits of an
integer, or the bits of a floating point number; a vector is the list of its sixteen bytes.
Integers narrower than 32 bits are held in 32 bits.  `Access.decode?` and `Access.encode?` relate
values to their bytes in memory.
-/

namespace TreeCode

/-- The value of a tree. -/
inductive Datum where
  | int32 (value : UInt32)
  | int64 (value : UInt64)
  | float (bits : UInt32)
  | double (bits : UInt64)
  | vector (bytes : List UInt8)
  deriving DecidableEq, Repr

namespace Datum

/-- Whether a tree of the type can have the value. -/
def fits : Datum → DataType → Bool
  | int32 _, .int8 | int32 _, .int16 | int32 _, .int32 => true
  | int64 _, .int64 | int64 _, .address => true
  | float _, .float => true
  | double _, .double => true
  | vector bytes, .vector _ => bytes.length == vectorBytes
  | _, _ => false

/-- The value as an address. -/
def address? : Datum → Option UInt64
  | int64 a => some a
  | _ => none

end Datum

namespace Access

/-- The value that is loaded from bytes.  A narrow integer is extended with its sign. -/
def decode? (access : Access) (bytes : List UInt8) : Option Datum :=
  if bytes.length = access.bytes then
    let n := ofLittleEndian bytes
    some (match access with
      | i8 => .int32 (UInt32.ofInt (UInt8.ofNat n).toInt8.toInt)
      | i16 => .int32 (UInt32.ofInt (UInt16.ofNat n).toInt16.toInt)
      | i32 => .int32 (UInt32.ofNat n)
      | i64 => .int64 (UInt64.ofNat n)
      | f32 => .float (UInt32.ofNat n)
      | f64 => .double (UInt64.ofNat n)
      | v128 => .vector bytes)
  else none

/-- The bytes that are stored for a value.  Of an integer these are the low ones. -/
def encode? : Access → Datum → Option (List UInt8)
  | i8, .int32 v => some (littleEndian 1 v.toNat)
  | i16, .int32 v => some (littleEndian 2 v.toNat)
  | i32, .int32 v => some (littleEndian 4 v.toNat)
  | i64, .int64 v => some (littleEndian 8 v.toNat)
  | f32, .float b => some (littleEndian 4 b.toNat)
  | f64, .double b => some (littleEndian 8 b.toNat)
  | v128, .vector bytes => if bytes.length = vectorBytes then some bytes else none
  | _, _ => none

/-- As many bytes are stored as the access says. -/
theorem length_of_encode? {access : Access} {d : Datum} {bytes : List UInt8}
    (h : access.encode? d = some bytes) : bytes.length = access.bytes := by
  cases access <;> cases d <;> simp [encode?] at h <;> first
    | (subst h; simp [Access.bytes])
    | (obtain ⟨h, rfl⟩ := h; simpa [Access.bytes, vectorBytes] using h)

end Access

/-- What is left of a value when it is passed as a value of the type. -/
def DataType.passed? (type : DataType) (d : Datum) : Option Datum :=
  ((Access.ofType type).encode? d).bind (Access.ofType type).decode?

end TreeCode
