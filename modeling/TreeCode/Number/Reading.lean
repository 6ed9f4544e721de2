import TreeCode.Number.Binary

/-!
# Reading decimal floating point numbers

A number is an optional sign followed by `inf`, `infinity` or `nan` in any case, or by digits with
an optional point and an optional exponent.  At least one digit stands before or after the point.
The value is the 64-bit number nearest to what is written.
-/

namespace TreeCode.Number

/-- A decimal significand and a power of ten. -/
structure Decimal where
  digits : Nat
  exponent : Int
  deriving DecidableEq, Repr

namespace Decimal

/-- The magnitude bits of the number of a format nearest to a decimal.  Decimals far outside the
range of the wider format are settled without computing their power of ten. -/
def round (f : BinaryFormat) (d : Decimal) : Nat :=
  let order := d.exponent + (Nat.toDigits 10 d.digits).length
  if d.digits = 0 then 0
  else if 400 < order then f.infinity
  else if order < -400 then 0
  else
    match d.exponent with
    | .ofNat k => f.ofRatio (d.digits * Nat.pow 10 k) 1
    | .negSucc k => f.ofRatio d.digits (Nat.pow 10 (k + 1))

end Decimal

/-- The value of a string of digits. -/
def digitsValue (cs : List Char) : Nat :=
  cs.foldl (fun n c => 10 * n + (c.toNat - '0'.toNat)) 0

/-- Reads an exponent: nothing, or the letter `e`, an optional sign and digits. -/
def exponent? : List Char → Option Int
  | [] => some 0
  | e :: rest =>
    if e = 'e' || e = 'E' then
      let (negative, digits) :=
        match rest with
        | '-' :: ds => (true, ds)
        | '+' :: ds => (false, ds)
        | ds => (false, ds)
      if digits.isEmpty || !digits.all Char.isDigit then none
      else
        let n : Int := digitsValue digits
        some (if negative then -n else n)
    else none

/-- Reads an unsigned decimal: digits, an optional point with more digits, an optional exponent. -/
def decimal? (cs : List Char) : Option Decimal :=
  let whole := cs.takeWhile Char.isDigit
  let rest := cs.dropWhile Char.isDigit
  let (fraction, rest) :=
    match rest with
    | '.' :: rest => (rest.takeWhile Char.isDigit, rest.dropWhile Char.isDigit)
    | rest => ([], rest)
  if whole.isEmpty && fraction.isEmpty then none
  else (exponent? rest).map fun e => ⟨digitsValue (whole ++ fraction), e - fraction.length⟩

/-- Reads an unsigned number and gives the bits of its magnitude. -/
def magnitude? (cs : List Char) : Option Nat :=
  match String.ofList (cs.map Char.toLower) with
  | "inf" | "infinity" => some binary64.infinity
  | "nan" => some binary64.quietNaN
  | _ => (decimal? cs).map (Decimal.round binary64)

/-- Reads a number and gives the bits of the nearest 64-bit number. -/
def bits? (cs : List Char) : Option UInt64 :=
  let (negative, rest) :=
    match cs with
    | '-' :: rest => (true, rest)
    | '+' :: rest => (false, rest)
    | rest => (false, rest)
  (magnitude? rest).map fun m => UInt64.ofNat (binary64.withSign negative m)

end TreeCode.Number
