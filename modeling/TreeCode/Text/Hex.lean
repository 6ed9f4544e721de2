/-!
# Hexadecimal text

Numbers and bytes written in base 16 with small letters.
-/

namespace TreeCode.Text

/-- The digits of a number in base 16, most significant one first. -/
def hexDigits (n : Nat) : String := String.ofList (Nat.toDigits 16 n)

/-- A number with the mark `0x`. -/
def hex (n : Nat) : String := "0x" ++ hexDigits n

/-- Fills a text up to a width from the left. -/
def padLeft (width : Nat) (fill : Char) (s : String) : String :=
  String.ofList (List.replicate (width - s.length) fill) ++ s

/-- Fills a text up to a width from the right with spaces. -/
def padRight (width : Nat) (s : String) : String :=
  s ++ String.ofList (List.replicate (width - s.length) ' ')

/-- The digits of a number, at least `width` of them. -/
def hexPadded (width n : Nat) : String := padLeft width '0' (hexDigits n)

/-- A byte as two digits. -/
def hexByte (b : UInt8) : String := hexPadded 2 b.toNat

/-- Bytes as two digits each, with nothing between them. -/
def hexBytes (bytes : List UInt8) : String := String.join (bytes.map hexByte)

end TreeCode.Text
