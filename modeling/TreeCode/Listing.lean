import TreeCode.Assembly
import TreeCode.X64.Decoding
import TreeCode.X64.Listing

/-!
# Listings of machine code

Code is listed either as bytes, sixteen in a line, or as instructions, one in a line with its
address and bytes.  Instructions of fixed size are not taken apart but listed as words.
-/

namespace TreeCode

/-- An address at the beginning of a line. -/
def lineAddress (a : UInt64) : String := Text.hexPadded 16 a.toNat

namespace MachineCode

/-- The bytes from a place on, sixteen in a line; `lines` bounds the number of lines. -/
def hexLines (code : MachineCode) : (lines place : Nat) → String
  | 0, _ => ""
  | lines + 1, place =>
    let bytes := slice code.bytes place 16
    lineAddress (Isa.address code.base place) ++ " "
      ++ String.join (bytes.map fun b => " " ++ Text.hexByte b) ++ "\n"
      ++ code.hexLines lines (place + 16)

/-- The code as bytes. -/
def hexDump (code : MachineCode) : String := code.hexLines ((code.bytes.size + 15) / 16) 0

/-- A line of an instruction listing. -/
def instructionLine (address : UInt64) (bytes : List UInt8) (text : String) : String :=
  lineAddress address ++ "  " ++ Text.padRight 24 (Text.hexBytes bytes) ++ " " ++ text ++ "\n"

/-- The instructions of x86-64 in some bytes, which stand at an address.  A byte with which no
instruction begins has a line of its own. -/
def x64Lines : (fuel : Nat) → (address : UInt64) → List UInt8 → String
  | 0, _, _ | _, _, [] => ""
  | fuel + 1, address, b :: rest =>
    let bytes := b :: rest
    match X64.decode? bytes with
    | some (i, size) =>
      let next := address + UInt64.ofNat size
      instructionLine address (bytes.take size) (i.render next)
        ++ x64Lines fuel next (bytes.drop size)
    | none => instructionLine address [b] "(bad)" ++ x64Lines fuel (address + 1) rest

/-- The words of the code from a place on; `words` is their number. -/
def wordLines (code : MachineCode) : (words place : Nat) → String
  | 0, _ => ""
  | words + 1, place =>
    lineAddress (Isa.address code.base place) ++ "  "
      ++ Text.hexPadded 8 (wordAt code.bytes place).toNat ++ "\n"
      ++ code.wordLines words (place + 4)

/-- The code as instructions. -/
def listing (code : MachineCode) : String :=
  match code.isa with
  | .x64 => x64Lines code.bytes.size code.base code.bytes.toList
  | .aarch64 => code.wordLines (code.bytes.size / 4) 0

end MachineCode

end TreeCode
