import TreeCode.Evaluation.Datum
import TreeCode.Number.Arithmetic

/-!
# Arithmetic on values

Integers wrap around in two's complement, and counts of shifts and rotations are taken modulo the
width.  Floating point arithmetic is a parameter, the `FloatUnit`: the meaning of trees does not
depend on how it rounds.  Lane-wise arithmetic works on the lanes of two vectors one by one.
-/

namespace TreeCode

namespace IntOp

/-- Whether the right operand is a count of bits. -/
def takesCount : IntOp → Bool
  | shl | shr | ushr | rol | ror => true
  | _ => false

/-- An integer operation on words of any width. -/
def apply {w : Nat} (op : IntOp) (a b : BitVec w) : BitVec w :=
  match op with
  | add => a + b
  | sub => a - b
  | mul => a * b
  | and => a &&& b
  | or => a ||| b
  | xor => a ^^^ b
  | shl => a <<< (b.toNat % w)
  | shr => a.sshiftRight (b.toNat % w)
  | ushr => a >>> (b.toNat % w)
  | rol => a.rotateLeft (b.toNat % w)
  | ror => a.rotateRight (b.toNat % w)

/-- An integer operation on values.  The count of bits for a 64-bit number may have 32 bits. -/
def onData? (op : IntOp) : Datum → Datum → Option Datum
  | .int32 a, .int32 b => some (.int32 ⟨op.apply a.toBitVec b.toBitVec⟩)
  | .int64 a, .int64 b => some (.int64 ⟨op.apply a.toBitVec b.toBitVec⟩)
  | .int64 a, .int32 b =>
    if op.takesCount then some (.int64 ⟨op.apply a.toBitVec b.toUInt64.toBitVec⟩) else none
  | _, _ => none

end IntOp

namespace Datum

/-- The negative of an integer. -/
def negate? : Datum → Option Datum
  | int32 a => some (int32 (-a))
  | int64 a => some (int64 (-a))
  | _ => none

/-- The truth of a comparison of two integers with their signs. -/
def compare? (c : Condition) : Datum → Datum → Option Bool
  | int32 a, int32 b => some (c.holds a.toInt32.toInt b.toInt32.toInt)
  | int64 a, int64 b => some (c.holds a.toInt64.toInt b.toInt64.toInt)
  | _, _ => none

end Datum

/-- Floating point arithmetic on bits, of single or double width.  A single number is held in the
low 32 bits. -/
structure FloatUnit where
  apply : FloatOp → (double : Bool) → UInt64 → UInt64 → UInt64
  sqrt : (double : Bool) → UInt64 → UInt64

namespace FloatOp

/-- The operation with correct rounding. -/
def exact (op : FloatOp) (f : Number.BinaryFormat) (a b : Nat) : Nat :=
  match op with
  | add => f.add a b
  | sub => f.sub a b
  | mul => f.mul a b
  | div => f.div a b

end FloatOp

namespace FloatUnit

/-- The format of a width. -/
def format (double : Bool) : Number.BinaryFormat :=
  if double then Number.binary64 else Number.binary32

/-- Arithmetic that rounds the exact result to the nearest number. -/
def exact : FloatUnit where
  apply op double a b := UInt64.ofNat (op.exact (format double) a.toNat b.toNat)
  sqrt double a := UInt64.ofNat ((format double).sqrt a.toNat)

/-- An operation on values. -/
def onData? (u : FloatUnit) (op : FloatOp) : Datum → Datum → Option Datum
  | .float a, .float b => some (.float (u.apply op false a.toUInt64 b.toUInt64).toUInt32)
  | .double a, .double b => some (.double (u.apply op true a b))
  | _, _ => none

/-- The square root of a value. -/
def sqrt? (u : FloatUnit) : Datum → Option Datum
  | .float a => some (.float (u.sqrt false a.toUInt64).toUInt32)
  | .double a => some (.double (u.sqrt true a))
  | _ => none

end FloatUnit

/-! ## Lanes -/

/-- The lanes of a vector, as the numbers that their bytes make. -/
def Lane.split (lane : Lane) (bytes : List UInt8) : List Nat :=
  (List.range lane.count).map fun i =>
    ofLittleEndian ((bytes.drop (i * lane.bytes)).take lane.bytes)

/-- The vector with the given lanes. -/
def Lane.join (lane : Lane) (lanes : List Nat) : List UInt8 :=
  lanes.flatMap (littleEndian lane.bytes)

namespace VectorOp

/-- The operation on one lane. -/
def onLane? (u : FloatUnit) (op : VectorOp) (lane : Lane) (a b : Nat) : Option Nat :=
  if lane.isFloat then
    some (u.apply (.ofVector op) (lane == .f64) (UInt64.ofNat a) (UInt64.ofNat b)).toNat
  else
    let word (n : Nat) := BitVec.ofNat (8 * lane.bytes) n
    match op with
    | add => some (IntOp.add.apply (word a) (word b)).toNat
    | sub => some (IntOp.sub.apply (word a) (word b)).toNat
    | mul => some (IntOp.mul.apply (word a) (word b)).toNat
    | div => none

/-- The operation on all lanes of two vectors. -/
def onBytes? (u : FloatUnit) (op : VectorOp) (lane : Lane) (a b : List UInt8) :
    Option (List UInt8) :=
  (((lane.split a).zip (lane.split b)).mapM fun (x, y) => op.onLane? u lane x y).map lane.join

/-- The operation on values. -/
def onData? (u : FloatUnit) (op : VectorOp) (lane : Lane) : Datum → Datum → Option Datum
  | .vector a, .vector b => (op.onBytes? u lane a b).map .vector
  | _, _ => none

end VectorOp

end TreeCode
