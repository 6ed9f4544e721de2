/-!
# Binary floating point formats

A format is given by the widths of its fraction and exponent fields.  Finite numbers are decoded
into a significand and a power of two, and a quotient of natural numbers is rounded to the nearest
number of a format, a tie going to the even one.  All arithmetic here is on natural numbers, so
the rounding is exact.
-/

namespace TreeCode.Number

/-- A binary interchange format: a sign bit, an exponent field, a fraction field. -/
structure BinaryFormat where
  fractionBits : Nat
  exponentBits : Nat

/-- The 32-bit format. -/
def binary32 : BinaryFormat := ⟨23, 8⟩

/-- The 64-bit format. -/
def binary64 : BinaryFormat := ⟨52, 11⟩

namespace BinaryFormat

/-- The sign bit as a number. -/
def signBit (f : BinaryFormat) : Nat := Nat.pow 2 (f.fractionBits + f.exponentBits)

/-- The bits of positive infinity. -/
def infinity (f : BinaryFormat) : Nat := (Nat.pow 2 f.exponentBits - 1) * Nat.pow 2 f.fractionBits

/-- The bits of the positive quiet NaN without payload. -/
def quietNaN (f : BinaryFormat) : Nat := f.infinity + Nat.pow 2 (f.fractionBits - 1)

/-- Exponent of the unit in which the smallest numbers are counted. -/
def leastExponent (f : BinaryFormat) : Int :=
  2 - (Nat.pow 2 (f.exponentBits - 1) : Nat) - f.fractionBits

end BinaryFormat

/-- What the bits of a floating point number stand for. -/
inductive Numeral where
  | nan
  | infinite (negative : Bool)
  /-- The number `significand * 2 ^ exponent`, negated if `negative`. -/
  | finite (negative : Bool) (significand : Nat) (exponent : Int)
  deriving DecidableEq, Repr

namespace BinaryFormat

/-- Reads the bits of a number. -/
def decode (f : BinaryFormat) (bits : Nat) : Numeral :=
  let negative := decide (f.signBit ≤ bits)
  let magnitude := bits % f.signBit
  let field := magnitude / Nat.pow 2 f.fractionBits
  let fraction := magnitude % Nat.pow 2 f.fractionBits
  if f.infinity < magnitude then .nan
  else if magnitude = f.infinity then .infinite negative
  else if field = 0 then .finite negative fraction f.leastExponent
  else .finite negative (Nat.pow 2 f.fractionBits + fraction) (f.leastExponent + (field - 1))

end BinaryFormat

/-- The quotient rounded to the nearest natural number, a tie going to the even one. -/
def divNearestEven (num den : Nat) : Nat :=
  let q := num / den
  let r := num % den
  if 2 * r < den then q
  else if den < 2 * r then q + 1
  else if q % 2 = 0 then q else q + 1

/-- `num / den` brought to the unit `2 ^ e`, again as a quotient. -/
def inUnits (num den : Nat) (e : Int) : Nat × Nat :=
  match e with
  | .ofNat k => (num, den * Nat.pow 2 k)
  | .negSucc k => (num * Nat.pow 2 (k + 1), den)

/-- The integer part of the binary logarithm of a positive quotient. -/
def floorLog2 (num den : Nat) : Int :=
  let e : Int := (num.log2 : Int) - (den.log2 : Int)
  let (n, d) := inUnits num den e
  if d ≤ n then e else e - 1

namespace BinaryFormat

/-- The bits of the number nearest to `num / den`; past the largest number, those of infinity.

Numbers of one sign are ordered as their bits are, so a significand that rounds up to the next
power of two carries into the exponent field by itself. -/
def ofRatio (f : BinaryFormat) (num den : Nat) : Nat :=
  if num = 0 then 0
  else
    let unit := max f.leastExponent (floorLog2 num den - f.fractionBits)
    let (n, d) := inUnits num den unit
    let bits := (unit - f.leastExponent).toNat * Nat.pow 2 f.fractionBits + divNearestEven n d
    min bits f.infinity

/-- The bits of the number nearest to `m * 2 ^ e`. -/
def ofScaled (f : BinaryFormat) (m : Nat) (e : Int) : Nat :=
  match e with
  | .ofNat k => f.ofRatio (m * Nat.pow 2 k) 1
  | .negSucc k => f.ofRatio m (Nat.pow 2 (k + 1))

/-- Puts the sign on the bits of a magnitude. -/
def withSign (f : BinaryFormat) (negative : Bool) (magnitude : Nat) : Nat :=
  if negative then f.signBit + magnitude else magnitude

end BinaryFormat

/-- The 64-bit number nearest to an integer. -/
def ofInt (v : Int) : UInt64 :=
  UInt64.ofNat (binary64.withSign (decide (v < 0)) (binary64.ofRatio v.natAbs 1))

/-- Rounds a 64-bit number to 32 bits.  A NaN keeps its sign and the upper part of its payload and
becomes quiet. -/
def narrow (bits : UInt64) : UInt32 :=
  match binary64.decode bits.toNat with
  | .nan =>
    let sign : UInt32 := (bits >>> 32).toUInt32 &&& (0x80000000 : UInt32)
    let payload : UInt32 := (bits >>> 29).toUInt32 &&& (0x003fffff : UInt32)
    sign ||| (0x7fc00000 : UInt32) ||| payload
  | .infinite negative => UInt32.ofNat (binary32.withSign negative binary32.infinity)
  | .finite negative m e => UInt32.ofNat (binary32.withSign negative (binary32.ofScaled m e))

end TreeCode.Number
