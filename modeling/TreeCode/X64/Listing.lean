import TreeCode.Text.Hex
import TreeCode.X64.Inst

/-!
# Listings of x86-64 instructions

An instruction is written as its name and its operands, the destination first.  Numbers below ten
are written in base 10, all others in base 16 with capital letters and an `h` behind them, and with
a zero in front where a letter would come first.
-/

namespace TreeCode.X64

/-- Writes a number of at least `width` digits in base 16, with its mark. -/
def markedHex (width n : Nat) : String :=
  let digits := (Text.hexPadded width n).toUpper
  let startsWithLetter := (digits.toList.head?.map Char.isAlpha).getD false
  (if startsWithLetter then "0" else "") ++ digits ++ "h"

/-- A number in a listing. -/
def numberText (n : Nat) : String := if n < 10 then toString n else markedHex 1 n

/-- The address a branch goes to, with all of its digits. -/
def addressText (a : UInt64) : String :=
  if a < 10 then toString a.toNat else markedHex 16 a.toNat

/-- Names of the first eight general purpose registers, without the letter of their width. -/
def classicNames : List String := ["ax", "cx", "dx", "bx", "sp", "bp", "si", "di"]

/-- Name of a general purpose register at a width in bytes. -/
def registerName (bytes : Nat) (r : Register) : String :=
  match classicNames[r.val]? with
  | some name =>
    match bytes with
    | 8 => "r" ++ name
    | 4 => "e" ++ name
    | 2 => name
    | _ => if r.val < 4 then String.ofList (name.toList.take 1) ++ "l" else name ++ "l"
  | none =>
    let ending :=
      match bytes with
      | 8 => ""
      | 4 => "d"
      | 2 => "w"
      | _ => "b"
    "r" ++ toString r.val ++ ending

/-- Name of a register of 32 or 64 bits. -/
def wordName (wide : Bool) (r : Register) : String := registerName (if wide then 8 else 4) r

/-- Name of a vector register. -/
def vectorName (r : Register) : String := "xmm" ++ toString r.val

/-- A place in memory. -/
def memoryText (base : Register) (offset : Int32) : String :=
  let o := offset.toInt
  let displacement :=
    if o = 0 then ""
    else (if o < 0 then "-" else "+") ++ numberText o.natAbs
  "[" ++ registerName 8 base ++ displacement ++ "]"

/-- Name of the end of a conditional jump. -/
def conditionName : Condition → String
  | .eq => "e"
  | .ne => "ne"
  | .lt => "l"
  | .ge => "ge"
  | .gt => "g"
  | .le => "le"

/-- Name of scalar arithmetic without its width. -/
def floatName : FloatOp → String
  | .add => "add"
  | .sub => "sub"
  | .mul => "mul"
  | .div => "div"

/-- Ending of the instructions on one number of a width. -/
def scalarEnding (double : Bool) : String := if double then "sd" else "ss"

/-- Name of lane-wise arithmetic. -/
def packedName (op : VectorOp) (lane : Lane) : String :=
  let name := floatName (.ofVector op)
  match op, lane with
  | _, .f32 => name ++ "ps"
  | _, .f64 => name ++ "pd"
  | .mul, .i16 => "pmullw"
  | .mul, .i32 => "pmulld"
  | _, .i8 => "p" ++ name ++ "b"
  | _, .i16 => "p" ++ name ++ "w"
  | _, .i32 => "p" ++ name ++ "d"
  | _, .i64 => "p" ++ name ++ "q"

/-- Name of a load or store of a vector register. -/
def vectorMoveName : Access → String
  | .f32 => "movss"
  | .f64 => "movq"
  | _ => "movdqu"

/-- The register of a load or store. -/
def accessName (access : Access) (r : Register) : String :=
  match access.bank with
  | .general => registerName access.bytes r
  | .vector => vectorName r

namespace Inst

/-- The name and the operands of an instruction that ends at an address. -/
def parts (next : UInt64) : Inst → String × List String
  | push r => ("push", [registerName 8 r])
  | pop r => ("pop", [registerName 8 r])
  | ret => ("ret", [])
  | movReg wide dst src => ("mov", [wordName wide dst, wordName wide src])
  | subStack bytes => ("sub", [registerName 8 rsp, numberText bytes.toNat])
  | load .i8 dst base offset =>
    ("movsx", [registerName 4 dst, "byte ptr " ++ memoryText base offset])
  | load .i16 dst base offset =>
    ("movsx", [registerName 4 dst, "word ptr " ++ memoryText base offset])
  | load access dst base offset =>
    (if access.bank = .general then "mov" else vectorMoveName access,
      [accessName access dst, memoryText base offset])
  | store access src base offset =>
    (if access.bank = .general then "mov" else vectorMoveName access,
      [memoryText base offset, accessName access src])
  | movImm64 dst value => ("mov", [registerName 8 dst, numberText value.toNat])
  | movImm32 dst value => ("mov", [registerName 4 dst, numberText value.toNat])
  | movToVector wide dst src =>
    (if wide then "movq" else "movd", [vectorName dst, wordName wide src])
  | movaps dst src => ("movaps", [vectorName dst, vectorName src])
  | alu op wide dst rhs => (op.name, [wordName wide dst, wordName wide rhs])
  | imul wide dst rhs => ("imul", [wordName wide dst, wordName wide rhs])
  | shift op wide dst => (op.name, [wordName wide dst, "cl"])
  | neg wide dst => ("neg", [wordName wide dst])
  | scalar op double dst rhs =>
    (floatName op ++ scalarEnding double, [vectorName dst, vectorName rhs])
  | sqrt double dst src => ("sqrt" ++ scalarEnding double, [vectorName dst, vectorName src])
  | packed op lane dst rhs => (packedName op lane, [vectorName dst, vectorName rhs])
  | jump distance => ("jmp", [addressText (next + distance.toInt64.toUInt64)])
  | call distance => ("call", [addressText (next + distance.toInt64.toUInt64)])
  | jumpReg r => ("jmp", [registerName 8 r])
  | callReg r => ("call", [registerName 8 r])
  | jumpIf c distance =>
    ("j" ++ conditionName c, ["short " ++ addressText (next + distance.toInt64.toUInt64)])

/-- An instruction that ends at an address, as listings show it. -/
def render (next : UInt64) (i : Inst) : String :=
  let (name, operands) := i.parts next
  if operands.isEmpty then name else name ++ " " ++ ",".intercalate operands

end Inst

end TreeCode.X64
