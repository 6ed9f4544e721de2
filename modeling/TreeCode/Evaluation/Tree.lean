import TreeCode.Evaluation.Arithmetic
import TreeCode.Memory
import TreeCode.Method

/-!
# The meaning of trees

The children of a node are evaluated from left to right, then the node itself.  Evaluation changes
the `World`: the memory, and the list of calls to code outside, which is a parameter.  It is stuck
where a tree is not well typed and where it loads or stores outside of all memory.
-/

namespace TreeCode

/-- A call of code outside: where it goes, and the values that are passed. -/
structure OutsideCall where
  target : UInt64
  arguments : List Datum
  deriving DecidableEq, Repr

/-- What evaluation changes. -/
structure World where
  memory : Memory
  /-- The calls made so far, the latest one first. -/
  calls : List OutsideCall
  deriving DecidableEq, Repr

/-- What code outside does when it is called: its result, if it has one, and the memory it leaves.
It may depend on all calls before. -/
abbrev Outside := World → OutsideCall → Option (Option Datum × Memory)

/-- What evaluation depends on besides the world. -/
structure Setting where
  unit : FloatUnit
  outside : Outside
  /-- The values of the parameters. -/
  arguments : List Datum

/-- Evaluation: from a world to a value and a changed world, unless it is stuck. -/
abbrev Evaluation := StateT World Option

/-- The value if there is one; else evaluation is stuck. -/
def Evaluation.ofOption {α : Type} (o : Option α) : Evaluation α := fun w => o.map fun a => (a, w)

/-- The address an indirect access goes to. -/
def Immediate.indirect (imm : Immediate) (base : UInt64) : UInt64 :=
  match imm with
  | .offset o => base + o.toInt64.toUInt64
  | _ => base

namespace Setting

/-- Loads a value of a type. -/
def loadFrom (type : DataType) (address : UInt64) : Evaluation Datum := do
  let access := Access.ofType type
  let bytes ← .ofOption ((← get).memory.read? address access.bytes)
  .ofOption (access.decode? bytes)

/-- Stores a value as one of a type. -/
def storeTo (type : DataType) (address : UInt64) (d : Datum) : Evaluation Unit := do
  let w ← get
  let bytes ← .ofOption ((Access.ofType type).encode? d)
  let memory ← .ofOption (w.memory.write? address bytes)
  set { w with memory := memory }

/-- Calls code outside. -/
def call (s : Setting) (target : UInt64) (arguments : List Datum) : Evaluation (Option Datum) := do
  let w ← get
  let c : OutsideCall := ⟨target, arguments⟩
  let (result, memory) ← .ofOption (s.outside w c)
  set (World.mk memory (c :: w.calls))
  pure result

/-- The value of a parameter. -/
def parameter (s : Setting) (type : DataType) (imm : Immediate) : Option Datum :=
  match imm with
  | .parm i => s.arguments[i.toNat]?.bind type.passed?
  | _ => none

/-- The value of a constant. -/
def constant (type : DataType) (imm : Immediate) : Option Datum :=
  match imm with
  | .int v => some (if type.isWide then .int64 v.toUInt64 else .int32 v.toUInt64.toUInt32)
  | .float bits =>
    some (if type = .double then .double bits else .float (Number.narrow bits))
  | _ => none

/-- The value of an operation on two values. -/
def combine (s : Setting) (op : Opcode) (type : DataType) (a b : Datum) : Option Datum :=
  match type.lane?, op.vectorOp? with
  | some l, some vop => vop.onData? s.unit l a b
  | some _, none => none
  | none, vop =>
    if type.isFloating then vop.bind fun v => s.unit.onData? (.ofVector v) a b
    else if op = .rol then IntOp.rol.onData? a b
    else (IntOp.ofOpcode? op).bind fun iop => iop.onData? a b

mutual

/-- The value of a tree. -/
def eval (s : Setting) : Node → Evaluation Datum
  | .node op type imm children =>
    match op with
    | .load => .ofOption (s.parameter type imm)
    | .const => .ofOption (constant type imm)
    | .loadIndirect => do
      let base ← evalFirst s children
      let address ← .ofOption base.address?
      loadFrom type (imm.indirect address)
    | .neg => do
      let a ← evalFirst s children
      .ofOption a.negate?
    | .sqrt => do
      let a ← evalFirst s children
      .ofOption (s.unit.sqrt? a)
    | .call => do
      let result ← evalCall s imm children
      let d ← .ofOption result
      if d.fits type then pure d else failure
    | .storeIndirect | .ret | .goto | .ifcmp _ => failure
    | op => do
      let (a, b) ← evalPair s children
      .ofOption (s.combine op type a b)

/-- The value of the first of some trees. -/
def evalFirst (s : Setting) : List Node → Evaluation Datum
  | a :: _ => eval s a
  | [] => failure

/-- The values of the first two of some trees. -/
def evalPair (s : Setting) : List Node → Evaluation (Datum × Datum)
  | a :: b :: _ => do
    let x ← eval s a
    let y ← eval s b
    pure (x, y)
  | _ => failure

/-- The values of some trees as they are passed to a call. -/
def evalArguments (s : Setting) : List Node → Evaluation (List Datum)
  | [] => pure []
  | n :: ns => do
    let d ← eval s n
    let passed ← .ofOption (n.type.passed? d)
    let rest ← evalArguments s ns
    pure (passed :: rest)

/-- The result of a call with some trees as arguments. -/
def evalCall (s : Setting) (imm : Immediate) (children : List Node) :
    Evaluation (Option Datum) := do
  let arguments ← evalArguments s children
  match imm with
  | .address target => s.call target arguments
  | _ => failure

end

end Setting

end TreeCode
