import Mathlib.Logic.Function.Basic
import TreeCode.Convention
import TreeCode.Evaluation.Run
import TreeCode.Proofs.Contents

/-!
# The abstract machine

What the operations that lowering produces mean.  The machine has the registers of the two pools,
the registers that arguments and results of calls are passed in, the frame of the method and the
memory.  It promises as little as any hardware keeps: a value that is put into a register says
nothing about the bytes behind it, argument and result registers may be registers of the pools, and
a call leaves nothing in registers except its result.  What stands in such places is the `noise`, of
which nothing is known.
-/

namespace TreeCode

/-- What the two sides of a call agree on: the types of the arguments, and the type of the result if
there is one and it is used. -/
structure CallSite where
  arguments : List DataType
  result : Option DataType
  deriving DecidableEq, Repr

mutual

/-- The calls of a tree, in the order in which they are made. -/
def Node.callSites : Node → List CallSite
  | .node op type _ children =>
    Node.callSitesOf children ++ if op = .call then [⟨children.map Node.type, some type⟩] else []

/-- The calls of some trees. -/
def Node.callSitesOf : List Node → List CallSite
  | [] => []
  | n :: ns => Node.callSites n ++ Node.callSitesOf ns

end

/-- The calls of a tree of a block.  If the tree is a call itself, its result is not used. -/
def Node.treetopSites (n : Node) : List CallSite :=
  if n.op = .call then Node.callSitesOf n.children ++ [⟨n.children.map Node.type, none⟩]
  else n.callSites

/-- The calls of a method. -/
def Method.callSites (m : Method) : List CallSite := m.trees.flatMap Node.treetopSites

namespace Datum

/-- The bytes of a value in a register. -/
def bytes : Datum → List UInt8
  | int32 v | float v => wordBytes v
  | int64 v | double v => doubleWordBytes v
  | vector bytes => bytes

/-- The integer that a value stands for with its sign. -/
def signed? : Datum → Option Int
  | int32 v => some v.toInt32.toInt
  | int64 v => some v.toInt64.toInt
  | _ => none

end Datum

/-- The integer access of a width. -/
def Access.ofWide (wide : Bool) : Access := if wide then i64 else i32

/-- The floating point access of a width. -/
def Access.ofDouble (double : Bool) : Access := if double then f64 else f32

/-- Contents of the registers. -/
structure Registers where
  pool : Reg → Contents
  arguments : Argument → Contents
  results : Bank → Contents

/-- A machine, and the code outside that it calls. -/
structure Machine where
  isa : Isa
  unit : FloatUnit
  outside : Outside
  /-- What is left in registers about which nothing is promised, at every time. -/
  noise : Nat → Registers

namespace Machine

/-- What evaluation depends on when it is compared with the machine. -/
def setting (M : Machine) (arguments : List Datum) : Setting := ⟨M.unit, M.outside, arguments⟩

/-- What the machine changes. -/
structure State where
  registers : Registers
  frame : Contents
  /-- Number of bytes of the frame. -/
  frameSize : Nat
  /-- The operands of a comparison that has just been made. -/
  comparison : Option (Int × Int)
  /-- Number of instructions done. -/
  clock : Nat
  world : World

namespace State

/-- An instruction is done. -/
def tick (σ : State) : State := { σ with comparison := none, clock := σ.clock + 1 }

/-- Puts bytes into the frame. -/
def store (σ : State) (place : Nat) (bytes : List UInt8) : State :=
  { σ.tick with frame := σ.frame.write place bytes }

/-- Where an offset of the frame leads, if so many bytes from there on are in the frame. -/
def place? (σ : State) (offset : Int32) (count : Nat) : Option Nat :=
  if 0 ≤ offset.toInt ∧ offset.toInt.toNat + count ≤ σ.frameSize then some offset.toInt.toNat
  else none

end State

variable (M : Machine)

/-! ## Registers and memory -/

/-- Whether there is a register of the index in the pool, and an access is one to its bank. -/
def Has (access : Access) (r : Reg) : Prop :=
  access.bank = r.bank ∧ r.index < M.isa.pool r.bank

instance (access : Access) (r : Reg) : Decidable (M.Has access r) :=
  inferInstanceAs (Decidable (_ ∧ _))

/-- The low bytes of a register of the pool. -/
def bytes? (σ : State) (access : Access) (r : Reg) : Option (List UInt8) :=
  if M.Has access r then some ((σ.registers.pool r).read 0 access.bytes) else none

/-- The value in a register of the pool. -/
def value? (σ : State) (access : Access) (r : Reg) : Option Datum :=
  (M.bytes? σ access r).bind access.decode?

/-- Puts bytes into a register of the pool. -/
def put (σ : State) (r : Reg) (bytes : List UInt8) : State :=
  let noise := M.noise σ.clock
  { σ.tick with registers := { noise with
      pool := Function.update σ.registers.pool r ((noise.pool r).write 0 bytes) } }

/-- Puts a value into a register of the pool. -/
def putValue? (σ : State) (access : Access) (r : Reg) (d : Datum) : Option State :=
  if M.Has access r then some (M.put σ r d.bytes) else none

/-- Leaves nothing in the registers. -/
def forget (σ : State) : State := { σ.tick with registers := M.noise σ.clock }

/-- Puts bytes into an argument register. -/
def putArgument (σ : State) (argument : Argument) (bytes : List UInt8) : State :=
  let noise := M.noise σ.clock
  { σ.tick with registers := { noise with
      arguments := Function.update σ.registers.arguments argument
        ((noise.arguments argument).write 0 bytes) } }

/-- Puts bytes into the result register of a bank. -/
def putResult (σ : State) (bank : Bank) (bytes : List UInt8) : State :=
  let noise := M.noise σ.clock
  { σ.tick with registers := { noise with
      results := Function.update noise.results bank ((noise.results bank).write 0 bytes) } }

/-- The address in a register of the pool. -/
def address? (σ : State) (index : Nat) : Option UInt64 :=
  (M.value? σ .i64 (.general index)).bind Datum.address?

/-- Reads bytes of the frame or of the memory. -/
def readAt? (σ : State) (base : Base) (offset : Int32) (count : Nat) : Option (List UInt8) :=
  match base with
  | .frame => (σ.place? offset count).map fun place => σ.frame.read place count
  | .reg index => do
    let address ← M.address? σ index
    σ.world.memory.read? (address + offset.toInt64.toUInt64) count

/-- Writes bytes of the frame or of the memory. -/
def writeAt? (σ : State) (base : Base) (offset : Int32) (bytes : List UInt8) : Option State :=
  match base with
  | .frame => (σ.place? offset bytes.length).map fun place => σ.store place bytes
  | .reg index => do
    let address ← M.address? σ index
    let memory ← σ.world.memory.write? (address + offset.toInt64.toUInt64) bytes
    some { σ.tick with world := { σ.world with memory := memory } }

/-! ## Instructions -/

/-- Does an instruction after which the next one follows. -/
def perform (σ : State) : Instr → Option State
  | .prologue frame => some { σ.tick with frameSize := frame.toNat }
  | .epilogue => none
  | .spillArg argument access offset =>
    if access.bank = argument.bank then
      M.writeAt? σ .frame offset ((σ.registers.arguments argument).read 0 access.bytes)
    else none
  | .loadArg argument access offset =>
    if access.bank = argument.bank then
      (M.readAt? σ .frame offset access.bytes).map (M.putArgument σ argument)
    else none
  | .load access dst base offset => do
    let bytes ← M.readAt? σ base offset access.bytes
    let d ← access.decode? bytes
    M.putValue? σ access dst d
  | .store access src base offset => do
    let bytes ← M.bytes? σ access src
    M.writeAt? σ base offset bytes
  | .movImm dst value wide =>
    M.putValue? σ (.ofWide wide) (.general dst)
      (if wide then .int64 value.toUInt64 else .int32 value.toUInt64.toUInt32)
  | .fmovImm dst bits double =>
    M.putValue? σ (.ofDouble double) (.vector dst)
      (if double then .double bits else .float bits.toUInt32)
  | .intOp op wide dst rhs => do
    let a ← M.value? σ (.ofWide wide) (.general dst)
    let b ← M.value? σ (.ofWide wide) (.general rhs)
    let d ← op.onData? a b
    M.putValue? σ (.ofWide wide) (.general dst) d
  | .intNeg wide dst => do
    let a ← M.value? σ (.ofWide wide) (.general dst)
    let d ← a.negate?
    M.putValue? σ (.ofWide wide) (.general dst) d
  | .floatOp op double dst rhs => do
    let a ← M.value? σ (.ofDouble double) (.vector dst)
    let b ← M.value? σ (.ofDouble double) (.vector rhs)
    let d ← M.unit.onData? op a b
    M.putValue? σ (.ofDouble double) (.vector dst) d
  | .floatSqrt double dst => do
    let a ← M.value? σ (.ofDouble double) (.vector dst)
    let d ← M.unit.sqrt? a
    M.putValue? σ (.ofDouble double) (.vector dst) d
  | .vectorOp op lane dst rhs => do
    let a ← M.value? σ .v128 (.vector dst)
    let b ← M.value? σ .v128 (.vector rhs)
    let d ← op.onData? M.unit lane a b
    M.putValue? σ .v128 (.vector dst) d
  | .compare wide lhs rhs => do
    let a ← (← M.value? σ (.ofWide wide) (.general lhs)).signed?
    let b ← (← M.value? σ (.ofWide wide) (.general rhs)).signed?
    some { σ.tick with comparison := some (a, b) }
  | .moveResult src => do
    let bytes ← M.bytes? σ (.whole src.bank) src
    some (M.putResult σ src.bank bytes)
  | .takeResult dst =>
    let access := Access.whole dst.bank
    if M.Has access dst then
      some (M.put σ dst ((σ.registers.results dst.bank).read 0 access.bytes))
    else none

/-- The values in the argument registers, each one read at the width of its type. -/
def passed? (σ : State) (types : List DataType) : Option (List Datum) := do
  let arguments ← M.isa.convention.assignAll types
  (arguments.zip types).mapM fun (argument, type) =>
    let access := Access.ofType type
    access.decode? ((σ.registers.arguments argument).read 0 access.bytes)

/-- Calls code outside.  There is nothing behind a call whose result is used but is not of its
type. -/
def call (σ : State) (site : CallSite) (target : UInt64) : Option State := do
  let c : OutsideCall := ⟨target, ← M.passed? σ site.arguments⟩
  let (result, memory) ← M.outside σ.world c
  let after := { σ with world := ⟨memory, c :: σ.world.calls⟩ }
  match site.result with
  | none => some (M.forget after)
  | some type =>
    let d ← result
    if d.fits type then some (M.putResult after (.ofType type) d.bytes) else none

end Machine

/-! ## Programs -/

/-- Whether an operation is a call. -/
def Op.isCall : Op → Bool
  | .transfer (.call _) => true
  | _ => false

/-- The label that an operation binds. -/
def Op.label? : Op → Option Nat
  | .bind label => some label
  | _ => none

/-- Operations, and what is agreed on at the calls among them, in the same order. -/
structure Program where
  ops : List Op
  sites : List CallSite

namespace Program

/-- Where a label is bound. -/
def place? (P : Program) (label : Nat) : Option Nat := P.ops.findIdx? (· == .bind label)

/-- What is agreed on at the call at a place. -/
def site? (P : Program) (pc : Nat) : Option CallSite :=
  P.sites[(P.ops.take pc).countP Op.isCall]?

/-- The block that a place belongs to: the last label that is bound before it. -/
def blockAt (P : Program) (pc : Nat) : Option Nat :=
  (P.ops.take pc).reverse.findSome? Op.label?

end Program

namespace Machine

/-- The machine between two operations, or behind the end of the method. -/
inductive Config where
  | running (pc : Nat) (σ : State)
  | returned (σ : State)

variable (M : Machine)

/-- Does the operation at a place. -/
def step (P : Program) (pc : Nat) (σ : State) : Option Config :=
  match P.ops[pc]? with
  | none => none
  | some (.instr .epilogue) => some (.returned σ)
  | some (.instr i) => (M.perform σ i).map (.running (pc + 1))
  | some (.bind _) => some (.running (pc + 1) σ)
  | some (.transfer (.jump label)) => (P.place? label).map (.running · σ)
  | some (.transfer (.branchIf c label)) => do
    let (a, b) ← σ.comparison
    if c.holds a b then (P.place? label).map (.running · σ) else some (.running (pc + 1) σ)
  | some (.transfer (.call target)) => do
    let site ← P.site? pc
    (M.call σ site target).map (.running (pc + 1))

/-- Does so many operations, or fewer if the method returns. -/
def run (P : Program) : (steps : Nat) → Config → Option Config
  | 0, c => some c
  | steps + 1, .running pc σ => (M.step P pc σ).bind (run P steps)
  | _ + 1, .returned σ => some (.returned σ)

/-- The argument registers hold arguments for parameters of the given types, each one at the width
of its parameter. -/
def Passes (σ : State) (params : List DataType) (arguments : List Datum) : Prop :=
  ∀ registers, M.isa.convention.assignAll params = some registers →
    ∀ (i : Nat) argument type, (registers.zip params)[i]? = some (argument, type) →
      ∃ d, arguments[i]? = some d ∧ (Access.ofType type).encode? d =
        some ((σ.registers.arguments argument).read 0 (Access.ofType type).bytes)

end Machine

end TreeCode
