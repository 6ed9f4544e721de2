import TreeCode.Instr
import TreeCode.Number.Arithmetic
import TreeCode.Number.Shortest

/-!
# Lanes and their reference values

The content of a lane is the number that its bits make.  An integer lane is read with its sign in
two's complement, and reference values are computed with integers and brought back into range; a
floating point lane is computed with correct rounding.  Observed lanes are compared with expected
ones either exactly or up to an absolute difference.
-/

namespace TreeCode

namespace Lane

/-- Width of a lane in bits. -/
def bits (lane : Lane) : Nat := 8 * lane.bytes

/-- An integer lane with its sign. -/
def toInt (lane : Lane) (content : Nat) : Int := (content : Int).bmod (Nat.pow 2 lane.bits)

/-- The content of an integer lane that is congruent to a number. -/
def ofInt (lane : Lane) (n : Int) : Nat := (n % (Nat.pow 2 lane.bits : Nat)).toNat

/-- The format of a floating point lane. -/
def format (lane : Lane) : Number.BinaryFormat :=
  if lane = .f64 then Number.binary64 else Number.binary32

/-- A lane in diagnostics. -/
def render (lane : Lane) (content : Nat) : String :=
  if lane.isFloat then Number.render Number.laneStyle lane.format content
  else toString (lane.toInt content)

end Lane

namespace VectorOp

/-- The reference value of integer lanes before it is brought into range.  A quotient that does not
exist or lies out of range counts as 0. -/
def onInts (op : VectorOp) (lane : Lane) (a b : Int) : Int :=
  match op with
  | add => a + b
  | sub => a - b
  | mul => a * b
  | div =>
    let quotient := a.tdiv b
    if quotient = (Nat.pow 2 (lane.bits - 1) : Nat) then 0 else quotient

/-- The reference value of one lane. -/
def referenceLane (op : VectorOp) (lane : Lane) (a b : Nat) : Nat :=
  if lane.isFloat then
    match op with
    | add => lane.format.add a b
    | sub => lane.format.sub a b
    | mul => lane.format.mul a b
    | div => lane.format.div a b
  else lane.ofInt (op.onInts lane (lane.toInt a) (lane.toInt b))

/-- The reference values of lanes, as many as both operands have. -/
def reference (op : VectorOp) (lane : Lane) (a b : List Nat) : List Nat :=
  List.zipWith (op.referenceLane lane) a b

end VectorOp

/-- How close observed lanes have to be to the expected ones. -/
inductive Tolerance where
  | exact
  /-- The absolute difference is at most the 64-bit number with these bits. -/
  | epsilon (bits : UInt64)
  deriving DecidableEq, Repr

namespace Tolerance

/-- Whether a number is at most the tolerated difference, whatever its sign. -/
def allows (epsilon : UInt64) (difference : Number.Numeral) : Bool :=
  difference.abs.le (Number.binary64.decode epsilon.toNat)

/-- Whether the observed content of a lane is close enough to the expected one.  Integers are
subtracted as 64-bit floating point numbers, and floating point numbers at their own width. -/
def accepts (t : Tolerance) (lane : Lane) (expected observed : Nat) : Bool :=
  match t, lane.isFloat with
  | exact, false => observed == expected
  | exact, true =>
    let x := lane.format.decode observed
    let y := lane.format.decode expected
    x.le y && y.le x
  | epsilon e, false =>
    let number (content : Nat) := (Number.ofInt (lane.toInt content)).toNat
    let difference := Number.binary64.sub (number observed) (number expected)
    allows e (Number.binary64.decode difference)
  | epsilon e, true => allows e (lane.format.decode (lane.format.sub observed expected))

end Tolerance

/-- Why lanes were not found to be as expected. -/
inductive LaneError where
  | count (expected found : Nat)
  | mismatch (lane : Lane) (index expected observed : Nat)
  deriving DecidableEq, Repr

/-- The wording of an error. -/
def LaneError.message : LaneError → String
  | count expected found =>
    "expected " ++ toString expected ++ " lanes, got " ++ toString found
  | mismatch lane index expected observed =>
    "lane " ++ toString index ++ ": expected " ++ lane.render expected ++ ", observed "
      ++ lane.render observed

namespace Lane

/-- Compares lanes from an index on, up to the first one that differs. -/
def compareFrom (lane : Lane) (t : Tolerance) :
    (index : Nat) → (expected observed : List Nat) → Except LaneError Unit
  | index, e :: es, o :: os =>
    if t.accepts lane e o then lane.compareFrom t (index + 1) es os
    else .error (.mismatch lane index e o)
  | _, _, _ => .ok ()

/-- Checks that observed lanes are as many and as close as expected. -/
def verify (lane : Lane) (t : Tolerance) (expected observed : List Nat) : Except LaneError Unit :=
  if expected.length ≠ observed.length then .error (.count expected.length observed.length)
  else lane.compareFrom t 0 expected observed

end Lane

end TreeCode
