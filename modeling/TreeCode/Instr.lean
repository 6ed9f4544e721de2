import TreeCode.Opcode
import TreeCode.Target.Reach

/-!
# Abstract instructions

Between trees and bytes stand instructions that are the same for every instruction set.  They name
registers by their places in the pools of a bank, slots of the frame by byte offsets, and places in
the code by labels.  `Instr` holds the instructions that only pass control on to the next one,
`Transfer` those that do not; the form of a transfer, direct or through a register, is chosen when
its address is known.
-/

namespace TreeCode

/-- A set of registers. -/
inductive Bank where
  | general
  /-- Scalar floating point numbers and vectors. -/
  | vector
  deriving DecidableEq, Repr

namespace Bank

/-- Name of a bank. -/
def name : Bank → String
  | general => "GeneralPurpose"
  | vector => "Vector"

/-- The bank that holds the values of a type. -/
def ofType (t : DataType) : Bank := if t.isIntegral then general else vector

end Bank

/-- A register of a pool, by its index there. -/
inductive Reg where
  | general (index : Nat)
  | vector (index : Nat)
  deriving DecidableEq, Repr

namespace Reg

/-- The bank of a register. -/
def bank : Reg → Bank
  | general _ => .general
  | vector _ => .vector

/-- The index of a register in its pool. -/
def index : Reg → Nat
  | general i | vector i => i

/-- The register at an index of the pool of a bank. -/
def inBank : Bank → Nat → Reg
  | .general, i => general i
  | .vector, i => vector i

/-- A register in messages. -/
def name : Reg → String
  | general i => "Gp(" ++ toString i ++ ")"
  | vector i => "Fp(" ++ toString i ++ ")"

end Reg

/-- Width and kind of a memory access.  Integer loads narrower than 32 bits extend the sign to 32
bits. -/
inductive Access where
  | i8
  | i16
  | i32
  | i64
  | f32
  | f64
  | v128
  deriving DecidableEq, Repr

namespace Access

/-- The accesses, integers first. -/
def all : List Access := [i8, i16, i32, i64, f32, f64, v128]

/-- Name of an access. -/
def name : Access → String
  | i8 => "I8"
  | i16 => "I16"
  | i32 => "I32"
  | i64 => "I64"
  | f32 => "F32"
  | f64 => "F64"
  | v128 => "V128"

/-- Number of bytes read or written. -/
def bytes : Access → Nat
  | i8 => 1
  | i16 => 2
  | i32 | f32 => 4
  | i64 | f64 => 8
  | v128 => 16

/-- The bank of the registers that are loaded or stored. -/
def bank : Access → Bank
  | i8 | i16 | i32 | i64 => .general
  | f32 | f64 | v128 => .vector

/-- The access to a lane of a vector in memory. -/
def ofLane : Lane → Access
  | .i8 => i8
  | .i16 => i16
  | .i32 => i32
  | .i64 => i64
  | .f32 => f32
  | .f64 => f64

/-- The access to a value of a type in memory. -/
def ofType : DataType → Access
  | .int8 => i8
  | .int16 => i16
  | .int32 => i32
  | .int64 | .address | .noType => i64
  | .float => f32
  | .double => f64
  | .vector _ => v128

/-- The access that saves a whole register of a bank. -/
def whole : Bank → Access
  | .general => i64
  | .vector => v128

/-- The access to the eight-byte slot of a parameter or argument. -/
def slot : DataType → Access
  | .float => f32
  | .double => f64
  | _ => i64

end Access

/-- What the offset of a memory access counts from. -/
inductive Base where
  /-- The address in a general purpose register of the pool. -/
  | reg (index : Nat)
  /-- The frame of the method. -/
  | frame
  deriving DecidableEq, Repr

/-- Operations on integers. -/
inductive IntOp where
  | add
  | sub
  | mul
  | and
  | or
  | xor
  | shl
  /-- Arithmetic shift right. -/
  | shr
  /-- Logical shift right. -/
  | ushr
  | rol
  | ror
  deriving DecidableEq, Repr

namespace IntOp

/-- The integer operations. -/
def all : List IntOp := [add, sub, mul, and, or, xor, shl, shr, ushr, rol, ror]

/-- Name of an integer operation. -/
def name : IntOp → String
  | add => "Add"
  | sub => "Sub"
  | mul => "Mul"
  | and => "And"
  | or => "Or"
  | xor => "Xor"
  | shl => "Shl"
  | shr => "Shr"
  | ushr => "UShr"
  | rol => "Rol"
  | ror => "Ror"

/-- The integer operation of an opcode, if it is one. -/
def ofOpcode? : Opcode → Option IntOp
  | .add => some .add
  | .sub => some .sub
  | .mul => some .mul
  | .and => some .and
  | .or => some .or
  | .xor => some .xor
  | .shl => some .shl
  | .shr => some .shr
  | .ushr => some .ushr
  | _ => none

/-- The integer operation on lanes, if there is one. -/
def ofVector? : VectorOp → Option IntOp
  | .add => some .add
  | .sub => some .sub
  | .mul => some .mul
  | .div => none

end IntOp

/-- Operations on floating point numbers. -/
inductive FloatOp where
  | add
  | sub
  | mul
  | div
  deriving DecidableEq, Repr

namespace FloatOp

/-- The floating point operations. -/
def all : List FloatOp := [add, sub, mul, div]

/-- Name of a floating point operation. -/
def name : FloatOp → String
  | add => "Add"
  | sub => "Sub"
  | mul => "Mul"
  | div => "Div"

/-- The scalar operation of lane-wise arithmetic. -/
def ofVector : VectorOp → FloatOp
  | .add => add
  | .sub => sub
  | .mul => mul
  | .div => div

end FloatOp

/-- An argument register, by its place among those of its bank. -/
structure Argument where
  bank : Bank
  index : Nat
  deriving DecidableEq, Repr

/-- An argument register in messages. -/
def Argument.name (a : Argument) : String :=
  "ArgAssignment \x7b bank: " ++ a.bank.name ++ ", index: " ++ toString a.index ++ " \x7d"

/-- An instruction after which the next one follows, and the two ends of a method.  Registers
without a bank are of the one that the instruction works on. -/
inductive Instr where
  /-- Makes a frame of so many bytes. -/
  | prologue (frame : UInt32)
  /-- Gives up the frame and returns. -/
  | epilogue
  /-- Stores an incoming argument register in the frame. -/
  | spillArg (arg : Argument) (access : Access) (offset : Int32)
  /-- Loads an outgoing argument register from the frame. -/
  | loadArg (arg : Argument) (access : Access) (offset : Int32)
  | load (access : Access) (dst : Reg) (base : Base) (offset : Int32)
  | store (access : Access) (src : Reg) (base : Base) (offset : Int32)
  /-- Sets a register to an integer; if not `wide`, to its low 32 bits. -/
  | movImm (dst : Nat) (value : Int64) (wide : Bool)
  /-- Sets a register to the bits of a floating point number. -/
  | fmovImm (dst : Nat) (bits : UInt64) (double : Bool)
  /-- `dst = dst op rhs`; shift and rotation counts are taken modulo the width. -/
  | intOp (op : IntOp) (wide : Bool) (dst rhs : Nat)
  | intNeg (wide : Bool) (dst : Nat)
  | floatOp (op : FloatOp) (double : Bool) (dst rhs : Nat)
  | floatSqrt (double : Bool) (dst : Nat)
  | vectorOp (op : VectorOp) (lane : Lane) (dst rhs : Nat)
  | compare (wide : Bool) (lhs rhs : Nat)
  /-- Moves a value into the result register of its bank. -/
  | moveResult (src : Reg)
  /-- Moves the result of a call out of the result register of its bank. -/
  | takeResult (dst : Reg)
  deriving DecidableEq, Repr

/-- An instruction that passes control on to another place. -/
inductive Transfer where
  | jump (label : Nat)
  /-- Jumps if the operands of the last comparison satisfy a condition as signed numbers. -/
  | branchIf (condition : Condition) (label : Nat)
  | call (target : UInt64)
  deriving DecidableEq, Repr

/-- What lowering produces: instructions, places of labels, and transfers without a form. -/
inductive Op where
  | instr (i : Instr)
  | bind (label : Nat)
  | transfer (t : Transfer)
  deriving DecidableEq, Repr

/-- What an assembler is told to do: besides, to make labels, and the form of a transfer. -/
inductive Step where
  | newLabel
  | instr (i : Instr)
  | bind (label : Nat)
  | transfer (t : Transfer) (form : BranchForm)
  deriving DecidableEq, Repr

end TreeCode
