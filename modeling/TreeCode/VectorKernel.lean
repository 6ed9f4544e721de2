import TreeCode.Evaluation.Run
import TreeCode.Lanes
import TreeCode.Loading
import TreeCode.Typing

/-!
# Vector kernels

A kernel is the method that combines the vectors at two addresses lane by lane and stores the
result at a third one.  Its text is parsed and compiled like any other; then the kernel is applied
to given lanes, and the lanes that come out are compared with expected ones.
-/

namespace TreeCode

/-- The text of the kernel of an operation on vectors of a type. -/
def VectorOp.kernelText (op : VectorOp) (type : DataType) : String :=
  let name := String.ofList (op.mnemonic.toList.drop 1)
  let operand (index : String) := "(vloadi type=" ++ type.name ++ " (aload parm=" ++ index ++ "))"
  "(method name=vector_" ++ name ++ " return=NoType args=[Address,Address,Address]\n"
    ++ "  (block\n"
    ++ "    (vstorei type=" ++ type.name ++ " offset=0 (aload parm=0)\n"
    ++ "      (" ++ op.mnemonic ++ " " ++ operand "1" ++ " " ++ operand "2" ++ "))\n"
    ++ "    (return)))"

/-- What can go wrong when a kernel is checked. -/
inductive KernelError where
  | parse (e : ParseError)
  | code (e : CodeError)
  | lanes (e : LaneError)
  /-- The kernel has no meaning for its operands. -/
  | stuck
  deriving DecidableEq, Repr

/-- The wording of an error. -/
def KernelError.message : KernelError → String
  | parse e => e.message
  | code e => e.message
  | lanes e => e.message
  | stuck => "the kernel does not return"

namespace Kernel

/-- Address of the result. -/
def outAddress : UInt64 := 0x1000

/-- Addresses of the operands. -/
def operandAddresses : UInt64 × UInt64 := (0x2000, 0x3000)

/-- The memory in which a kernel is applied: room for the result, and two operands. -/
def memory (a b : List UInt8) : Memory :=
  ⟨[⟨outAddress, Array.replicate vectorBytes 0⟩, ⟨operandAddresses.1, a.toArray⟩,
    ⟨operandAddresses.2, b.toArray⟩]⟩

/-- The setting of a kernel: the addresses are passed, and nothing outside is called. -/
def setting (u : FloatUnit) : Setting :=
  ⟨u, fun _ _ => none, [.int64 outAddress, .int64 operandAddresses.1, .int64 operandAddresses.2]⟩

/-- Steps that suffice for a kernel. -/
def steps : Nat := 8

/-- The vector that a kernel stores for two operands. -/
def applyBytes? (u : FloatUnit) (m : Method) (a b : List UInt8) : Option (List UInt8) :=
  match m.run (setting u) steps ⟨memory a b, []⟩ with
  | some (_, w) => w.memory.read? outAddress vectorBytes
  | none => none

/-- Applies a kernel to lanes, of which there have to be as many as a vector has. -/
def apply (m : Method) (lane : Lane) (a b : List Nat) : Except KernelError (List Nat) := do
  if a.length ≠ lane.count then .error (.lanes (.count lane.count a.length))
  if b.length ≠ lane.count then .error (.lanes (.count lane.count b.length))
  match applyBytes? .exact m (lane.join a) (lane.join b) with
  | some bytes => .ok (lane.split bytes)
  | none => .error .stuck

/-- Parses, compiles and applies the kernel of an operation and compares the lanes that come out.
The lanes that come out are the answer. -/
def check (cpu : Cpu) (options : Options) (addresses : Placements) (op : VectorOp) (lane : Lane)
    (a b expected : List Nat) (t : Tolerance) : Except KernelError (List Nat) := do
  let m ← (Method.parse (op.kernelText (.vector lane))).mapError .parse
  let loaded ← (m.load cpu options addresses).mapError .code
  let observed ← apply loaded.method lane a b
  (lane.verify t expected observed).mapError .lanes
  .ok observed

end Kernel

end TreeCode
