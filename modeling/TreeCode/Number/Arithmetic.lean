import TreeCode.Number.Binary

/-!
# Floating point arithmetic

Sums, products, quotients and square roots of numbers given by their bits.  The exact result is
computed first and then rounded to the nearest number of the format.  An operand that is a NaN is
passed on in its quiet form, the left one if both are; an operation without a result gives the
quiet NaN with the sign set.
-/

namespace TreeCode.Number

namespace BinaryFormat

/-- The bits of infinity with a sign. -/
def infinityOf (f : BinaryFormat) (negative : Bool) : Nat := f.withSign negative f.infinity

/-- The bits that an operation without a result gives. -/
def invalid (f : BinaryFormat) : Nat := f.withSign true f.quietNaN

/-- Makes the bits of a NaN quiet. -/
def quiet (f : BinaryFormat) (bits : Nat) : Nat := bits ||| Nat.pow 2 (f.fractionBits - 1)

/-- The NaN that an operation passes on, if an operand is one. -/
def passedOn? (f : BinaryFormat) (a b : Nat) : Option Nat :=
  if f.decode a = .nan then some (f.quiet a)
  else if f.decode b = .nan then some (f.quiet b)
  else none

/-- The bits nearest to an integer times a power of two; zero with the given sign. -/
def ofInteger (f : BinaryFormat) (zeroNegative : Bool) (m e : Int) : Nat :=
  if m = 0 then f.withSign zeroNegative 0
  else f.withSign (decide (m < 0)) (f.ofScaled m.natAbs e)

/-- A significand with its sign. -/
def signedSignificand (negative : Bool) (m : Nat) : Int := if negative then -(m : Int) else m

/-- The sum of two numbers.  Zero is negative only as the sum of negative zeros. -/
def add (f : BinaryFormat) (a b : Nat) : Nat :=
  match f.passedOn? a b with
  | some bits => bits
  | none =>
    match f.decode a, f.decode b with
    | .infinite s, .infinite t => if s = t then f.infinityOf s else f.invalid
    | .infinite s, _ | _, .infinite s => f.infinityOf s
    | .finite s m e, .finite t n g =>
      let unit := min e g
      let left := signedSignificand s (m * Nat.pow 2 (e - unit).toNat)
      let right := signedSignificand t (n * Nat.pow 2 (g - unit).toNat)
      f.ofInteger (s && t) (left + right) unit
    | _, _ => f.invalid

/-- Changes the sign. -/
def negate (f : BinaryFormat) (a : Nat) : Nat :=
  if f.signBit ≤ a then a - f.signBit else a + f.signBit

/-- The difference of two numbers. -/
def sub (f : BinaryFormat) (a b : Nat) : Nat :=
  match f.passedOn? a b with
  | some bits => bits
  | none => f.add a (f.negate b)

/-- The product of two numbers. -/
def mul (f : BinaryFormat) (a b : Nat) : Nat :=
  match f.passedOn? a b with
  | some bits => bits
  | none =>
    match f.decode a, f.decode b with
    | .infinite s, .infinite t => f.infinityOf (s != t)
    | .infinite s, .finite t n _ | .finite t n _, .infinite s =>
      if n = 0 then f.invalid else f.infinityOf (s != t)
    | .finite s m e, .finite t n g => f.withSign (s != t) (f.ofScaled (m * n) (e + g))
    | _, _ => f.invalid

/-- The quotient of two numbers. -/
def div (f : BinaryFormat) (a b : Nat) : Nat :=
  match f.passedOn? a b with
  | some bits => bits
  | none =>
    match f.decode a, f.decode b with
    | .infinite s, .finite t _ _ => f.infinityOf (s != t)
    | .finite s _ _, .infinite t => f.withSign (s != t) 0
    | .finite s m e, .finite t n g =>
      if n = 0 then (if m = 0 then f.invalid else f.infinityOf (s != t))
      else
        let unit := min e g
        f.withSign (s != t)
          (f.ofRatio (m * Nat.pow 2 (e - unit).toNat) (n * Nat.pow 2 (g - unit).toNat))
    | _, _ => f.invalid

end BinaryFormat

/-- The square root of `n` rounded down, found bit by bit: `root` holds the higher bits. -/
def squareRootFrom (n : Nat) : (bits root : Nat) → Nat
  | 0, root => root
  | bits + 1, root =>
    let larger := root + Nat.pow 2 bits
    squareRootFrom n bits (if larger * larger ≤ n then larger else root)

/-- The square root rounded down. -/
def squareRoot (n : Nat) : Nat := squareRootFrom n (n.log2 / 2 + 1) 0

namespace BinaryFormat

/-- The square root of a number.  The root is computed to more bits than the format has; if it is
not exact, half of the last unit stands for what is missing. -/
def sqrt (f : BinaryFormat) (a : Nat) : Nat :=
  match f.decode a with
  | .nan => f.quiet a
  | .infinite negative => if negative then f.invalid else f.infinity
  | .finite negative m e =>
    if m = 0 then a
    else if negative then f.invalid
    else
      let shift := 2 * f.fractionBits + 6 + (e % 2).toNat
      let n := m * Nat.pow 2 shift
      let half := (e - shift) / 2
      let root := squareRoot n
      if root * root = n then f.ofScaled root half else f.ofScaled (2 * root + 1) (half - 1)

end BinaryFormat

namespace Numeral

/-- The number without its sign. -/
def abs : Numeral → Numeral
  | nan => nan
  | infinite _ => infinite false
  | finite _ m e => finite false m e

/-- Whether a number is at most another one; a NaN is neither. -/
def le : Numeral → Numeral → Bool
  | nan, _ | _, nan => false
  | infinite true, _ | _, infinite false => true
  | infinite false, _ | _, infinite true => false
  | finite s m e, finite t n g =>
    let unit := min e g
    decide (BinaryFormat.signedSignificand s (m * Nat.pow 2 (e - unit).toNat)
      ≤ BinaryFormat.signedSignificand t (n * Nat.pow 2 (g - unit).toNat))

/-- The integer part of a number, brought into the range of signed 64-bit numbers; 0 for a NaN. -/
def toInt64 : Numeral → Int
  | nan => 0
  | infinite negative => if negative then -9223372036854775808 else 9223372036854775807
  | finite negative m e =>
    let magnitude := match e with
      | .ofNat k => m * Nat.pow 2 k
      | .negSucc k => m / Nat.pow 2 (k + 1)
    if negative then -(min magnitude 9223372036854775808 : Nat)
    else (min magnitude 9223372036854775807 : Nat)

end Numeral

end TreeCode.Number
