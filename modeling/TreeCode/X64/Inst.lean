import TreeCode.Bytes
import TreeCode.Instr

/-!
# Instructions of x86-64

The instructions of x86-64 that code is made of, with their encodings.  Registers are given by
their hardware numbers.  An encoding begins with a mandatory byte such as `66` or `F3` where the
instruction has one, then a REX byte where it is needed, then the opcode, the byte that names the
operands, a displacement and an immediate.
-/

namespace TreeCode.X64

/-- A register of either bank by its hardware number. -/
abbrev Register := Fin 16

/-- Arithmetic between two general purpose registers, with the destination in the operand that
could also be memory. -/
inductive Alu where
  | add
  | sub
  | and
  | or
  | xor
  | cmp
  deriving DecidableEq, Repr

namespace Alu

/-- The arithmetic instructions. -/
def all : List Alu := [add, sub, and, or, xor, cmp]

/-- The opcode. -/
def opcode : Alu → UInt8
  | add => 0x01
  | sub => 0x29
  | and => 0x21
  | or => 0x09
  | xor => 0x31
  | cmp => 0x39

/-- The name in listings. -/
def name : Alu → String
  | add => "add"
  | sub => "sub"
  | and => "and"
  | or => "or"
  | xor => "xor"
  | cmp => "cmp"

end Alu

/-- Shifts and rotations by the count in `cl`. -/
inductive Shift where
  | rol
  | ror
  | shl
  | shr
  | sar
  deriving DecidableEq, Repr

namespace Shift

/-- The shifts and rotations. -/
def all : List Shift := [rol, ror, shl, shr, sar]

/-- The number that tells shifts of one opcode apart. -/
def digit : Shift → Nat
  | rol => 0
  | ror => 1
  | shl => 4
  | shr => 5
  | sar => 7

/-- The name in listings. -/
def name : Shift → String
  | rol => "rol"
  | ror => "ror"
  | shl => "shl"
  | shr => "shr"
  | sar => "sar"

end Shift

/-- An instruction. -/
inductive Inst where
  | push (r : Register)
  | pop (r : Register)
  | ret
  | movReg (wide : Bool) (dst src : Register)
  /-- Takes a number of bytes off the stack pointer. -/
  | subStack (bytes : UInt32)
  | load (access : Access) (dst base : Register) (offset : Int32)
  | store (access : Access) (src base : Register) (offset : Int32)
  | movImm64 (dst : Register) (value : UInt64)
  | movImm32 (dst : Register) (value : UInt32)
  /-- Moves the bits of a general purpose register into a vector register. -/
  | movToVector (wide : Bool) (dst src : Register)
  | movaps (dst src : Register)
  | alu (op : Alu) (wide : Bool) (dst rhs : Register)
  | imul (wide : Bool) (dst rhs : Register)
  | shift (op : Shift) (wide : Bool) (dst : Register)
  | neg (wide : Bool) (dst : Register)
  | scalar (op : FloatOp) (double : Bool) (dst rhs : Register)
  | sqrt (double : Bool) (dst src : Register)
  /-- Lane-wise arithmetic; not every operation exists for every lane type. -/
  | packed (op : VectorOp) (lane : Lane) (dst rhs : Register)
  | jump (distance : Int32)
  | call (distance : Int32)
  | jumpReg (r : Register)
  | callReg (r : Register)
  /-- A conditional jump over at most 127 bytes. -/
  | jumpIf (condition : Condition) (distance : Int8)
  deriving DecidableEq, Repr

/-! ## Parts of an encoding -/

/-- The first register. -/
def rax : Register := ⟨0, by decide⟩

/-- The stack pointer. -/
def rsp : Register := ⟨4, by decide⟩

/-- The frame pointer. -/
def rbp : Register := ⟨5, by decide⟩

/-- The low three bits of a register number, those in the byte that names the operands. -/
def low (r : Register) : Nat := r.val % 8

/-- The high bit of a register number, the one in the REX byte. -/
def high (r : Register) : Nat := r.val / 8

/-- The REX byte, left out where it says nothing and is not asked for. -/
def rex (wide forced : Bool) (reg rm : Register) : List UInt8 :=
  let bits := (if wide then 8 else 0) + high reg * 4 + high rm
  if bits = 0 && !forced then [] else [UInt8.ofNat (0x40 + bits)]

/-- The byte that names two operands. -/
def modRM (mode reg rm : Nat) : UInt8 := UInt8.ofNat (mode * 64 + reg * 8 + rm)

/-- Names two registers. -/
def registers (reg rm : Register) : List UInt8 := [modRM 3 (low reg) (low rm)]

/-- Names a register and a place in memory.  There is no displacement if the offset is zero, one
byte if it fits, and four bytes otherwise; with the stack pointer as base a second byte is needed,
and with the frame pointer a displacement. -/
def memory (reg base : Register) (offset : Int32) : List UInt8 :=
  let sib : List UInt8 := if low base = 4 then [0x24] else []
  let o := offset.toInt
  if o = 0 && low base ≠ 5 then modRM 0 (low reg) (low base) :: sib
  else if -128 ≤ o && o ≤ 127 then
    modRM 1 (low reg) (low base) :: (sib ++ [offset.toUInt32.toUInt8])
  else modRM 2 (low reg) (low base) :: (sib ++ wordBytes offset.toUInt32)

/-- Mandatory byte and opcode of a load. -/
def loadOpcode : Access → List UInt8 × List UInt8
  | .i8 => ([], [0x0f, 0xbe])
  | .i16 => ([], [0x0f, 0xbf])
  | .i32 | .i64 => ([], [0x8b])
  | .f32 => ([0xf3], [0x0f, 0x10])
  | .f64 => ([0xf3], [0x0f, 0x7e])
  | .v128 => ([0xf3], [0x0f, 0x6f])

/-- Mandatory byte and opcode of a store. -/
def storeOpcode : Access → List UInt8 × List UInt8
  | .i8 => ([], [0x88])
  | .i16 => ([0x66], [0x89])
  | .i32 | .i64 => ([], [0x89])
  | .f32 => ([0xf3], [0x0f, 0x11])
  | .f64 => ([0x66], [0x0f, 0xd6])
  | .v128 => ([0xf3], [0x0f, 0x7f])

/-- Opcode of scalar floating point arithmetic, behind `0F`. -/
def floatOpcode : FloatOp → UInt8
  | .add => 0x58
  | .sub => 0x5c
  | .mul => 0x59
  | .div => 0x5e

/-- Mandatory byte and opcode of lane-wise arithmetic, where it exists. -/
def packedOpcode? : VectorOp → Lane → Option (List UInt8 × List UInt8)
  | .add, .i8 => some ([0x66], [0x0f, 0xfc])
  | .add, .i16 => some ([0x66], [0x0f, 0xfd])
  | .add, .i32 => some ([0x66], [0x0f, 0xfe])
  | .add, .i64 => some ([0x66], [0x0f, 0xd4])
  | .sub, .i8 => some ([0x66], [0x0f, 0xf8])
  | .sub, .i16 => some ([0x66], [0x0f, 0xf9])
  | .sub, .i32 => some ([0x66], [0x0f, 0xfa])
  | .sub, .i64 => some ([0x66], [0x0f, 0xfb])
  | .mul, .i16 => some ([0x66], [0x0f, 0xd5])
  | .mul, .i32 => some ([0x66], [0x0f, 0x38, 0x40])
  | op, .f32 => some ([], [0x0f, floatOpcode (.ofVector op)])
  | op, .f64 => some ([0x66], [0x0f, floatOpcode (.ofVector op)])
  | _, _ => none

/-- Opcode of a short conditional jump. -/
def conditionOpcode : Condition → UInt8
  | .eq => 0x74
  | .ne => 0x75
  | .lt => 0x7c
  | .ge => 0x7d
  | .gt => 0x7f
  | .le => 0x7e

/-- Whether storing a byte of the register needs a REX byte, without which its number names the
second byte of another register. -/
def byteNeedsRex (access : Access) (r : Register) : Bool :=
  access == .i8 && 4 ≤ r.val && r.val < 8

/-- The bytes of an instruction. -/
def Inst.encode : Inst → List UInt8
  | push r => rex false false rax r ++ [UInt8.ofNat (0x50 + low r)]
  | pop r => rex false false rax r ++ [UInt8.ofNat (0x58 + low r)]
  | ret => [0xc3]
  | movReg wide dst src => rex wide false src dst ++ 0x89 :: registers src dst
  | subStack bytes =>
    if bytes ≤ 127 then [0x48, 0x83, 0xec, bytes.toUInt8]
    else [0x48, 0x81, 0xec] ++ wordBytes bytes
  | load access dst base offset =>
    let (mandatory, opcode) := loadOpcode access
    mandatory ++ rex (access == .i64) false dst base ++ opcode ++ memory dst base offset
  | store access src base offset =>
    let (mandatory, opcode) := storeOpcode access
    mandatory ++ rex (access == .i64) (byteNeedsRex access src) src base ++ opcode
      ++ memory src base offset
  | movImm64 dst value =>
    rex true false rax dst ++ UInt8.ofNat (0xb8 + low dst) :: doubleWordBytes value
  | movImm32 dst value => rex false false rax dst ++ UInt8.ofNat (0xb8 + low dst) :: wordBytes value
  | movToVector wide dst src => 0x66 :: rex wide false dst src ++ [0x0f, 0x6e] ++ registers dst src
  | movaps dst src => rex false false dst src ++ [0x0f, 0x28] ++ registers dst src
  | alu op wide dst rhs => rex wide false rhs dst ++ op.opcode :: registers rhs dst
  | imul wide dst rhs => rex wide false dst rhs ++ [0x0f, 0xaf] ++ registers dst rhs
  | shift op wide dst => rex wide false rax dst ++ [0xd3, modRM 3 op.digit (low dst)]
  | neg wide dst => rex wide false rax dst ++ [0xf7, modRM 3 3 (low dst)]
  | scalar op double dst rhs =>
    (if double then 0xf2 else 0xf3) :: rex false false dst rhs ++ [0x0f, floatOpcode op]
      ++ registers dst rhs
  | sqrt double dst src =>
    (if double then 0xf2 else 0xf3) :: rex false false dst src ++ [0x0f, 0x51] ++ registers dst src
  | packed op lane dst rhs =>
    match packedOpcode? op lane with
    | some (mandatory, opcode) =>
      mandatory ++ rex false false dst rhs ++ opcode ++ registers dst rhs
    | none => []
  | jump distance => 0xe9 :: wordBytes distance.toUInt32
  | call distance => 0xe8 :: wordBytes distance.toUInt32
  | jumpReg r => rex false false rax r ++ [0xff, modRM 3 4 (low r)]
  | callReg r => rex false false rax r ++ [0xff, modRM 3 2 (low r)]
  | jumpIf condition distance => [conditionOpcode condition, distance.toUInt8]

end TreeCode.X64
