import TreeCode.Number.Reading

/-!
# The shortest decimal that reads back

A floating point number is written with the fewest digits that read back as the same number, and
among those with the decimal nearest to it.  The decimals of a given number of digits lie on a
grid; only the two neighbours of the number on that grid need to be tried.
-/

namespace TreeCode.Number

/-- The exponent of the power of ten just above a positive quotient:
`10 ^ (k - 1) ≤ num / den < 10 ^ k`. -/
def decimalOrder (num den : Nat) : Int :=
  if den ≤ num then (Nat.toDigits 10 (num / den)).length
  else
    let zeros := (Nat.toDigits 10 (den / num)).length - 1
    if den ≤ num * Nat.pow 10 zeros then 1 - zeros else -zeros

/-- `num / den` brought to the unit `10 ^ e`, again as a quotient. -/
def inDecimalUnits (num den : Nat) (e : Int) : Nat × Nat :=
  match e with
  | .ofNat k => (num, den * Nat.pow 10 k)
  | .negSucc k => (num * Nat.pow 10 (k + 1), den)

/-- The decimals next to `num / den` in units of `10 ^ e`, the nearer one first; of two equally
near ones the larger comes first. -/
def neighbours (num den : Nat) (e : Int) : List Decimal :=
  let (n, d) := inDecimalUnits num den e
  let below : Decimal := ⟨n / d, e⟩
  let above : Decimal := ⟨n / d + 1, e⟩
  if 2 * (n % d) < d then [below, above] else [above, below]

/-- The first decimal of at most `count` digits, tried from `digits` digits on, that reads back. -/
def firstReadingBack (f : BinaryFormat) (bits num den : Nat) (order : Int) :
    (digits count : Nat) → Option Decimal
  | _, 0 => none
  | digits, count + 1 =>
    match (neighbours num den (order - digits)).find? fun d => d.round f == bits with
    | some d => some d
    | none => firstReadingBack f bits num den order (digits + 1) count

/-- The exact decimal of `m * 2 ^ e`. -/
def exactDecimal (m : Nat) (e : Int) : Decimal :=
  match e with
  | .ofNat k => ⟨m * Nat.pow 2 k, 0⟩
  | .negSucc k => ⟨m * Nat.pow 5 (k + 1), -(k + 1)⟩

/-- Digits that always suffice, in the widest format used here. -/
def enoughDigits : Nat := 17

/-- The shortest decimal that reads back as the finite number `m * 2 ^ e`. -/
def shortest (f : BinaryFormat) (m : Nat) (e : Int) : Decimal :=
  if m = 0 then ⟨0, 0⟩
  else
    let (num, den) := inUnits m 1 (-e)
    let bits := f.ofScaled m e
    (firstReadingBack f bits num den (decimalOrder num den) 1 enoughDigits).getD (exactDecimal m e)

/-! ## Layout -/

/-- A decimal as digits without trailing zeros and the place of the point behind the first digit's
left end: `0.d₁d₂… * 10 ^ point`. -/
def Decimal.places (d : Decimal) : List Char × Int :=
  if d.digits = 0 then (['0'], 1)
  else
    let digits := Nat.toDigits 10 d.digits
    let point := d.exponent + digits.length
    ((digits.reverse.dropWhile (· == '0')).reverse, point)

/-- Positional notation.  An integral number gets the given ending. -/
def Decimal.positional (d : Decimal) (ending : String) : String :=
  let (digits, point) := d.places
  let count : Int := digits.length
  if point ≤ 0 then
    "0." ++ String.ofList (List.replicate (-point).toNat '0' ++ digits)
  else if count ≤ point then
    String.ofList (digits ++ List.replicate (point - count).toNat '0') ++ ending
  else
    String.ofList (digits.take point.toNat) ++ "." ++ String.ofList (digits.drop point.toNat)

/-- Exponent notation, with one digit before the point. -/
def Decimal.scientific (d : Decimal) : String :=
  let (digits, point) := d.places
  let fraction := digits.drop 1
  String.ofList (digits.take 1)
    ++ (if fraction.isEmpty then "" else "." ++ String.ofList fraction)
    ++ "e" ++ toString (point - 1)

/-- How the finite numbers of a text are laid out. -/
structure NumberStyle where
  /-- What follows the digits of an integral number. -/
  integralEnding : String
  /-- Points outside this range call for exponent notation; no range means always positional. -/
  positionalRange : Option (Int × Int)

/-- Constants of a method: an integral number ends in `.0`, and numbers that are not zero and lie
below `10 ^ -4` or from `10 ^ 16` on have an exponent. -/
def constantStyle : NumberStyle := ⟨".0", some (-3, 16)⟩

/-- Lanes in diagnostics: digits only, never an exponent. -/
def laneStyle : NumberStyle := ⟨"", none⟩

/-- Writes the number with the given bits. -/
def render (style : NumberStyle) (f : BinaryFormat) (bits : Nat) : String :=
  match f.decode bits with
  | .nan => "NaN"
  | .infinite negative => if negative then "-inf" else "inf"
  | .finite negative m e =>
    let d := shortest f m e
    let positional :=
      match style.positionalRange with
      | none => true
      | some (low, high) => d.digits = 0 || (low ≤ d.places.2 && d.places.2 ≤ high)
    (if negative then "-" else "")
      ++ (if positional then d.positional style.integralEnding else d.scientific)

end TreeCode.Number
