import TreeCode.Bytes
import TreeCode.Instr

/-!
# Instructions of AArch64

The instructions of AArch64 that code is made of.  Each is one word of 32 bits, put together from
a base pattern and the fields of its registers and immediates.
-/

namespace TreeCode.A64

/-- A register of either bank by its number.  Number 31 is the stack pointer or the register that
is always zero, depending on the instruction. -/
abbrev Register := Fin 32

/-- Operations on two general purpose registers. -/
inductive DataOp where
  | add
  | sub
  | mul
  | and
  | or
  | xor
  | lsl
  | lsr
  | asr
  | ror
  | cmp
  deriving DecidableEq, Repr

/-- The pattern of an operation on 64-bit registers. -/
def DataOp.pattern : DataOp → UInt32
  | add => 0x8b000000
  | sub => 0xcb000000
  | mul => 0x9b007c00
  | and => 0x8a000000
  | or => 0xaa000000
  | xor => 0xca000000
  | lsl => 0x9ac02000
  | lsr => 0x9ac02400
  | asr => 0x9ac02800
  | ror => 0x9ac02c00
  | cmp => 0xeb000000

/-- An instruction. -/
inductive Inst where
  /-- Saves the frame pointer and the return address below the stack pointer. -/
  | pushLink
  /-- Restores what `pushLink` has saved. -/
  | popLink
  | ret
  /-- Adds an immediate of 12 bits. -/
  | addImm (dst src : Register) (imm : UInt32)
  | subImm (dst src : Register) (imm : UInt32)
  /-- Sets a halfword of a register and clears the others. -/
  | movz (wide : Bool) (half : Nat) (imm : UInt32) (dst : Register)
  /-- Sets a halfword of a register and keeps the others. -/
  | movk (wide : Bool) (half : Nat) (imm : UInt32) (dst : Register)
  | data (op : DataOp) (wide : Bool) (dst lhs rhs : Register)
  /-- Reads memory at a base and an immediate that counts units of the access. -/
  | load (access : Access) (dst base : Register) (imm : UInt32)
  | store (access : Access) (src base : Register) (imm : UInt32)
  /-- Moves the bits of a general purpose register into a vector register. -/
  | movToVector (double : Bool) (dst src : Register)
  /-- Copies a vector register. -/
  | movVector (dst src : Register)
  | scalar (op : FloatOp) (double : Bool) (dst lhs rhs : Register)
  | sqrt (double : Bool) (dst src : Register)
  /-- Lane-wise arithmetic; not every operation exists for every lane type. -/
  | packed (op : VectorOp) (lane : Lane) (dst lhs rhs : Register)
  /-- Jumps by a distance that counts words. -/
  | branch (words : UInt32)
  | call (words : UInt32)
  /-- Jumps by a distance that counts words if a condition holds. -/
  | branchIf (condition : Condition) (words : UInt32)
  | branchReg (r : Register)
  | callReg (r : Register)
  deriving DecidableEq, Repr

/-! ## Patterns -/

/-- Register number 31. -/
def r31 : Register := ⟨31, by decide⟩

/-- The link to the caller's frame. -/
def framePointer : Register := ⟨29, by decide⟩

/-- A register number in the field that begins at a bit. -/
def field (r : Register) (bit : UInt32) : UInt32 := UInt32.ofNat r.val <<< bit

/-- The bit of the 64-bit form of an operation on general purpose registers. -/
def wideBit : UInt32 := 0x80000000

/-- The 64-bit pattern or its 32-bit form. -/
def atWidth (wide : Bool) (pattern : UInt32) : UInt32 :=
  if wide then pattern else pattern &&& ~~~wideBit

/-- Pattern that sets a halfword and clears the others. -/
def movzPattern (wide : Bool) : UInt32 := atWidth wide 0xd2800000

/-- Pattern that sets a halfword and keeps the others. -/
def movkPattern (wide : Bool) : UInt32 := atWidth wide 0xf2800000

/-- Pattern of a move between the banks. -/
def toVectorPattern (double : Bool) : UInt32 := if double then 0x9e670000 else 0x1e270000

/-- Pattern of a load. -/
def loadPattern : Access → UInt32
  | .i8 => 0x39c00000
  | .i16 => 0x79c00000
  | .i32 => 0xb9400000
  | .i64 => 0xf9400000
  | .f32 => 0xbd400000
  | .f64 => 0xfd400000
  | .v128 => 0x3dc00000

/-- Pattern of a store. -/
def storePattern : Access → UInt32
  | .i8 => 0x39000000
  | .i16 => 0x79000000
  | .i32 => 0xb9000000
  | .i64 => 0xf9000000
  | .f32 => 0xbd000000
  | .f64 => 0xfd000000
  | .v128 => 0x3d800000

/-- Pattern of scalar floating point arithmetic on 32-bit numbers. -/
def floatPattern : FloatOp → UInt32
  | .add => 0x1e202800
  | .sub => 0x1e203800
  | .mul => 0x1e200800
  | .div => 0x1e201800

/-- The bit of the 64-bit form of scalar floating point arithmetic. -/
def doubleBit (double : Bool) : UInt32 := if double then 0x00400000 else 0

/-- Binary logarithm of the width of an integer lane in bytes. -/
def laneSize : Lane → UInt32
  | .i8 => 0
  | .i16 => 1
  | .i32 | .f32 => 2
  | .i64 | .f64 => 3

/-- Pattern of lane-wise arithmetic, where it exists.  Integer forms hold the width of the lanes in
two bits, floating point forms in one. -/
def packedPattern? (op : VectorOp) (lane : Lane) : Option UInt32 :=
  if lane.isFloat then
    let wide : UInt32 := if lane = .f64 then 0x00400000 else 0
    some <| wide ||| match op with
      | .add => 0x4e20d400
      | .sub => 0x4ea0d400
      | .mul => 0x6e20dc00
      | .div => 0x6e20fc00
  else
    let size := laneSize lane <<< 22
    match op, lane with
    | .add, _ => some (0x4e208400 ||| size)
    | .sub, _ => some (0x6e208400 ||| size)
    | .mul, .i64 => none
    | .mul, _ => some (0x4e209c00 ||| size)
    | .div, _ => none

/-- Number of a condition. -/
def conditionCode : Condition → UInt32
  | .eq => 0x0
  | .ne => 0x1
  | .ge => 0xa
  | .lt => 0xb
  | .gt => 0xc
  | .le => 0xd

/-- The word of an instruction. -/
def Inst.encode : Inst → UInt32
  | pushLink => 0xa9bf7bfd
  | popLink => 0xa8c17bfd
  | ret => 0xd65f03c0
  | addImm dst src imm => (0x91000000 : UInt32) ||| (imm <<< 10) ||| field src 5 ||| field dst 0
  | subImm dst src imm => (0xd1000000 : UInt32) ||| (imm <<< 10) ||| field src 5 ||| field dst 0
  | movz wide half imm dst =>
    movzPattern wide ||| (UInt32.ofNat half <<< 21) ||| (imm <<< 5) ||| field dst 0
  | movk wide half imm dst =>
    movkPattern wide ||| (UInt32.ofNat half <<< 21) ||| (imm <<< 5) ||| field dst 0
  | data op wide dst lhs rhs =>
    atWidth wide op.pattern ||| field rhs 16 ||| field lhs 5 ||| field dst 0
  | load access dst base imm => loadPattern access ||| (imm <<< 10) ||| field base 5 ||| field dst 0
  | store access src base imm =>
    storePattern access ||| (imm <<< 10) ||| field base 5 ||| field src 0
  | movToVector double dst src =>
    toVectorPattern double ||| field src 5 ||| field dst 0
  | movVector dst src => (0x4ea01c00 : UInt32) ||| field src 16 ||| field src 5 ||| field dst 0
  | scalar op double dst lhs rhs =>
    floatPattern op ||| doubleBit double ||| field rhs 16 ||| field lhs 5 ||| field dst 0
  | sqrt double dst src =>
    (0x1e21c000 : UInt32) ||| doubleBit double ||| field src 5 ||| field dst 0
  | packed op lane dst lhs rhs =>
    (packedPattern? op lane).getD 0 ||| field rhs 16 ||| field lhs 5 ||| field dst 0
  | branch words => (0x14000000 : UInt32) ||| (words &&& 0x03ffffff)
  | call words => (0x94000000 : UInt32) ||| (words &&& 0x03ffffff)
  | branchIf condition words => (0x54000000 : UInt32) ||| (words <<< 5) ||| conditionCode condition
  | branchReg r => (0xd61f0000 : UInt32) ||| field r 5
  | callReg r => (0xd63f0000 : UInt32) ||| field r 5

end TreeCode.A64
