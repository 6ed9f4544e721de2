import TreeCode.Bytes
import TreeCode.Number.Reading
import TreeCode.Source.Token

/-!
# Untyped expressions

The outer form of a text: an expression has a head, fields and child expressions.  Nothing here
knows about opcodes or types.
-/

namespace TreeCode.Source

/-- The value of a field. -/
inductive Value where
  | int (value : Int64)
  /-- The bits of a 64-bit floating point number. -/
  | float (bits : UInt64)
  | text (body : String)
  | ident (name : String)
  | list (items : List Value)
  deriving Repr

/-- `key=value`, or a value on its own, with the place where it begins. -/
structure Field where
  key : Option String
  value : Value
  position : Nat
  deriving Repr

/-- What an expression is without its children: the name behind the parenthesis, the place of the
parenthesis, and the fields in their order. -/
structure Form where
  head : String
  position : Nat
  fields : List Field
  deriving Repr

namespace Form

/-- The first field with a given key. -/
def field? (f : Form) (key : String) : Option Field :=
  f.fields.find? fun field => field.key == some key

/-- The fields that stand without a key. -/
def positional (f : Form) : List Field := f.fields.filter fun field => field.key.isNone

end Form

/-- A parenthesised expression. -/
inductive Expr where
  | expr (form : Form) (children : List Expr)
  deriving Repr

namespace Expr

/-- The expression without its children. -/
def form : Expr → Form
  | expr form _ => form

/-- The child expressions in their order. -/
def children : Expr → List Expr
  | expr _ children => children

mutual

/-- The forms of the expression and of all expressions below it in the order of their parentheses,
with their depths. -/
def preorder (depth : Nat) : Expr → List (Nat × Form)
  | expr form children => (depth, form) :: preorders (depth + 1) children

/-- The forms of a list of expressions in order, each with all below it. -/
def preorders (depth : Nat) : List Expr → List (Nat × Form)
  | [] => []
  | e :: es => preorder depth e ++ preorders depth es

end

end Expr

/-! ## Number literals -/

/-- The value of a hexadecimal digit. -/
def hexDigit? (c : Char) : Option Nat :=
  if c.isDigit then some (c.toNat - '0'.toNat)
  else if 'a' ≤ c && c ≤ 'f' then some (c.toNat - 'a'.toNat + 10)
  else if 'A' ≤ c && c ≤ 'F' then some (c.toNat - 'A'.toNat + 10)
  else none

/-- The value of a string of hexadecimal digits. -/
def hexValue? (cs : List Char) : Option Nat :=
  if cs.isEmpty then none
  else cs.foldlM (fun n c => (hexDigit? c).map (16 * n + ·)) 0

/-- Splits off a sign; the flag says whether it is a minus. -/
def splitSign : List Char → Bool × List Char
  | '-' :: rest => (true, rest)
  | '+' :: rest => (false, rest)
  | rest => (false, rest)

/-- Splits off the mark of a hexadecimal number. -/
def hexDigits? : List Char → Option (List Char)
  | '0' :: 'x' :: rest | '0' :: 'X' :: rest => some rest
  | _ => none

/-- The integer of a decimal magnitude.  Magnitudes from 2^63 to 2^64 - 1 stand for their 64-bit
words; a negative number is at least -2^63. -/
def decimalInteger? (negative : Bool) (magnitude : Nat) : Option Int64 :=
  if negative then
    if magnitude ≤ 9223372036854775808 then some (Int64.ofInt (-magnitude)) else none
  else if magnitude < wordRange then some (Int64.ofInt magnitude)
  else none

/-- The value of a number literal: a hexadecimal or decimal integer, or a floating point number. -/
def literalValue? (literal : List Char) : Option Value :=
  let (negative, digits) := splitSign literal
  match hexDigits? digits with
  | some hex =>
    match hexValue? hex with
    | some n =>
      if n < wordRange then
        let word := Int64.ofInt n
        some (.int (if negative then -word else word))
      else none
    | none => none
  | none =>
    if !digits.isEmpty && digits.all Char.isDigit then
      (decimalInteger? negative (Number.digitsValue digits)).map .int
    else (Number.bits? literal).map .float

end TreeCode.Source
