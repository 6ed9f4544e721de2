import TreeCode.CodeError
import TreeCode.Convention
import TreeCode.Frame
import TreeCode.Number.Binary

/-!
# From trees to abstract instructions

A node that is evaluated at depth `d` leaves its value in the register at index `d` of the pool of
its bank.  Its first operand is evaluated at the same depth and the second one at `d + 1`.
Registers that hold an operand which is still waited for are passed along as `held`; around a call
they are saved in the frame and restored.  The arguments of a call are gathered in a row of the
frame, one row for each level of calls within calls, and loaded into the argument registers at the
end.

Lowering knows nothing of addresses: the same operations result wherever the code will stand.
-/

namespace TreeCode

/-- What to do with a lane-wise operation that the processor has no instruction for. -/
inductive VectorFallback where
  | fail
  /-- Work on one lane after the other. -/
  | scalarize
  deriving DecidableEq, Repr

/-- The operations that lowering has produced, the number of lane-wise operations among them that
were taken apart, and the result or the error that ended it. -/
structure Lowering (α : Type) where
  ops : List Op
  scalarized : Nat
  result : Except CodeError α

namespace Lowering

/-- Lowering that produces nothing. -/
def pure {α : Type} (a : α) : Lowering α := ⟨[], 0, .ok a⟩

/-- One lowering after another; an error ends both. -/
def bind {α β : Type} (x : Lowering α) (f : α → Lowering β) : Lowering β :=
  match x.result with
  | .error e => ⟨x.ops, x.scalarized, .error e⟩
  | .ok a =>
    let y := f a
    ⟨x.ops ++ y.ops, x.scalarized + y.scalarized, y.result⟩

instance : Monad Lowering where
  pure := Lowering.pure
  bind := Lowering.bind

/-- Ends lowering with an error. -/
def fail {α : Type} (e : CodeError) : Lowering α := ⟨[], 0, .error e⟩

/-- Ends lowering with an error unless a condition holds. -/
def ensure (condition : Bool) (e : CodeError) : Lowering Unit :=
  if condition then Pure.pure () else fail e

/-- Produces an operation. -/
def op (o : Op) : Lowering Unit := ⟨[o], 0, .ok ()⟩

/-- Produces an instruction. -/
def instr (i : Instr) : Lowering Unit := op (.instr i)

/-- Counts a lane-wise operation that is taken apart. -/
def countScalarized : Lowering Unit := ⟨[], 1, .ok ()⟩

/-- Behind lowering that produces nothing there is only the rest. -/
theorem pure_then {α β : Type} (a : α) (f : α → Lowering β) :
    (Pure.pure a : Lowering α) >>= f = f a := by
  show (⟨[] ++ (f a).ops, 0 + (f a).scalarized, (f a).result⟩ : Lowering β) = f a
  rw [List.nil_append, Nat.zero_add]

/-- It does not matter how lowering one after the other is bracketed. -/
theorem then_assoc {α β γ : Type} (x : Lowering α) (f : α → Lowering β) (g : β → Lowering γ) :
    x >>= f >>= g = x >>= fun a => f a >>= g := by
  obtain ⟨ops, n, result⟩ := x
  cases result with
  | error e => rfl
  | ok a =>
    show Lowering.bind (Lowering.bind _ f) g = Lowering.bind _ fun a => Lowering.bind (f a) g
    simp only [Lowering.bind]
    cases (f a).result <;> simp [List.append_assoc, Nat.add_assoc]

end Lowering

/-- What lowering depends on besides the trees. -/
structure Plan where
  cpu : Cpu
  fallback : VectorFallback
  frame : Frame
  /-- Number of blocks; the label of the end of the method comes behind theirs. -/
  blocks : Nat

/-- A frame offset as instructions hold it. -/
def frameOffset (n : Nat) : Int32 := Int32.ofNat n

/-- A call whose arguments are still to be evaluated. -/
structure PendingCall where
  target : UInt64
  arguments : List (Argument × DataType)
  result : Option Reg

namespace Plan

/-- Ends lowering at a node for which there is no code. -/
def unsupported {α : Type} (op : Opcode) (type : DataType) (o : Obstacle) : Lowering α :=
  .fail (.unsupported (op.mnemonic type) type o)

/-- The register for a value of a type at a depth. -/
def register (p : Plan) (type : DataType) (depth : Nat) : Lowering Reg :=
  let bank := Bank.ofType type
  let available := p.cpu.isa.pool bank
  if depth < available then pure (.inBank bank depth)
  else .fail (.registerPressure (depth + 1) available)

/-! ## Vectors -/

/-- Works on the lane of two vectors at an offset in the buffers of the frame. -/
def lane (p : Plan) (op : VectorOp) (lane : Lane) (lhs rhs : Reg) (offset : Nat) :
    Lowering Unit := do
  let access := Access.ofLane lane
  let left := frameOffset (p.frame.scratch 0 + offset)
  let right := frameOffset (p.frame.scratch 1 + offset)
  .instr (.load access lhs .frame left)
  .instr (.load access rhs .frame right)
  if lane.isFloat then
    .instr (.floatOp (.ofVector op) (lane == .f64) lhs.index rhs.index)
  else
    match IntOp.ofVector? op with
    | some iop => .instr (.intOp iop (DataType.ofLane lane).isWide lhs.index rhs.index)
    | none => .fail (.unsupported op.mnemonic (.vector lane) .integerDivision)
  .instr (.store access lhs .frame left)

/-- Replaces the vector in the register at a depth by its lane-wise combination with the next one,
one lane after the other through the buffers of the frame. -/
def scalarize (p : Plan) (op : VectorOp) (l : Lane) (depth : Nat) : Lowering Unit := do
  .countScalarized
  .instr (.store .v128 (.vector depth) .frame (frameOffset (p.frame.scratch 0)))
  .instr (.store .v128 (.vector (depth + 1)) .frame (frameOffset (p.frame.scratch 1)))
  let lhs ← p.register (.ofLane l) depth
  let rhs ← p.register (.ofLane l) (depth + 1)
  (List.range l.count).forM fun i => p.lane op l lhs rhs (i * l.bytes)
  .instr (.load .v128 (.vector depth) .frame (frameOffset (p.frame.scratch 0)))

/-- The operation and the lanes of an opcode at a vector type. -/
def lanewise (op : Opcode) (type : DataType) : Lowering (VectorOp × Lane) :=
  match op.vectorOp?, type.lane? with
  | some vop, some l => pure (vop, l)
  | _, _ => unsupported op type .notAVectorOperation

/-- What a processor lacks on which a lane-wise operation is no instruction. -/
def vectorCapability (p : Plan) (op : VectorOp) (l : Lane) : Capability :=
  match p.cpu.vectorSupport op l with
  | .requires f => .feature f
  | _ => .vectorInstruction op (.vector l)

/-- Refuses a lane-wise operation on vectors of another width than the processor's, and one that can
neither be one instruction nor be taken apart. -/
def checkVector (p : Plan) (op : VectorOp) (l : Lane) : Lowering Unit := do
  .ensure (p.cpu.vectorBits == vectorBytes * 8)
    (.unsupported op.mnemonic (.vector l) (.vectorWidth p.cpu.vectorBits))
  .ensure (p.cpu.supports op l || p.fallback == .scalarize)
    (.unsupportedCapability op.mnemonic (.vector l) (p.vectorCapability op l))

theorem lanewise_then {α : Type} {op : Opcode} {vop : VectorOp} (h : op.vectorOp? = some vop)
    (l : Lane) (f : VectorOp × Lane → Lowering α) : lanewise op (.vector l) >>= f = f (vop, l) := by
  simp only [lanewise, h, DataType.lane?]
  exact Lowering.pure_then (vop, l) f

/-- The vectors of no processor have another width. -/
theorem checkVector_eq (p : Plan) (op : VectorOp) (l : Lane) : p.checkVector op l =
    .ensure (p.cpu.supports op l || p.fallback == .scalarize)
      (.unsupportedCapability op.mnemonic (.vector l) (p.vectorCapability op l)) := by
  rw [checkVector, p.cpu.vectorBits_eq, beq_self_eq_true]
  exact Lowering.pure_then () _

/-- Combines the vectors in the registers at a depth and the next one. -/
def combineVectors (p : Plan) (op : VectorOp) (l : Lane) (depth rhs : Nat) : Lowering Unit :=
  if p.cpu.supports op l then .instr (.vectorOp op l depth rhs) else p.scalarize op l depth

/-! ## Calls -/

/-- Finds the registers of a call before its arguments are evaluated. -/
def beginCall (p : Plan) (type : DataType) (imm : Immediate) (types : List DataType)
    (depth : Nat) : Lowering PendingCall := do
  match imm with
  | .address target =>
    match p.cpu.isa.convention.assignAll types with
    | none => unsupported .call type (.arguments types.length)
    | some arguments =>
      let result ← if type = .noType then pure none else some <$> p.register type depth
      pure ⟨target, arguments.zip types, result⟩
  | _ => unsupported .call type .callWithoutTarget

/-- Saves registers in the frame. -/
def save (p : Plan) (held : List Reg) : Lowering Unit :=
  held.zipIdx.forM fun (r, k) =>
    .instr (.store (.whole r.bank) r .frame (frameOffset (p.frame.spill k)))

/-- Restores registers from the frame. -/
def restore (p : Plan) (held : List Reg) : Lowering Unit :=
  held.zipIdx.forM fun (r, k) =>
    .instr (.load (.whole r.bank) r .frame (frameOffset (p.frame.spill k)))

/-- Loads the argument registers, calls, and takes the result. -/
def endCall (p : Plan) (held : List Reg) (level : Nat) (c : PendingCall) :
    Lowering (Option Reg) := do
  p.save held
  c.arguments.zipIdx.forM fun ((argument, type), j) =>
    .instr (.loadArg argument (.slot type) (frameOffset (p.frame.staging level j)))
  .op (.transfer (.call c.target))
  if let some r := c.result then .instr (.takeResult r)
  p.restore held
  pure c.result

/-! ## Trees -/

/-- Refuses a rotation that the processor can do neither way. -/
def checkRotation (p : Plan) (type : DataType) : Lowering Unit :=
  .ensure (p.cpu.canRotate true || p.cpu.canRotate false)
    (.unsupportedCapability (Opcode.rol.mnemonic type) type .rotation)

/-- Refuses a square root that is no instruction of the processor. -/
def checkSquareRoot (p : Plan) (type : DataType) : Lowering Unit :=
  .ensure p.cpu.hasSquareRoot (.unsupportedCapability (Opcode.sqrt.mnemonic type) type .squareRoot)

/-- No processor refuses rotations. -/
theorem checkRotation_then {α : Type} (p : Plan) (type : DataType) (f : Unit → Lowering α) :
    p.checkRotation type >>= f = f () := by
  rw [checkRotation, p.cpu.canRotate_or]
  exact Lowering.pure_then () f

/-- No processor refuses square roots. -/
theorem checkSquareRoot_then {α : Type} (p : Plan) (type : DataType) (f : Unit → Lowering α) :
    p.checkSquareRoot type >>= f = f () := by
  rw [checkSquareRoot, p.cpu.hasSquareRoot_eq]
  exact Lowering.pure_then () f

/-- Rotates a register to the left.  Where that is no instruction it is rotated to the right by the
negated count, which is the same modulo the width. -/
def rotateLeft (p : Plan) (wide : Bool) (dst count : Nat) : Lowering Unit := do
  if p.cpu.rotatesLeft then .instr (.intOp .rol wide dst count)
  else
    .instr (.intNeg false count)
    .instr (.intOp .ror wide dst count)

/-- Sets a register to a constant. -/
def constant (type : DataType) (dst : Nat) (imm : Immediate) : Lowering Unit :=
  match imm with
  | .int v => .instr (.movImm dst v type.isWide)
  | .float bits =>
    if type = .double then .instr (.fmovImm dst bits true)
    else .instr (.fmovImm dst (Number.narrow bits).toUInt64 false)
  | _ => unsupported .const type .notAValue

/-- The offset of an indirect access. -/
def accessOffset : Immediate → Int32
  | .offset o => o
  | _ => 0

mutual

/-- Evaluates a tree at a depth.  The registers in `held` are waited for, and `level` calls are
around the tree. -/
def eval (p : Plan) (held : List Reg) (level depth : Nat) : Node → Lowering Reg
  | .node op type imm children =>
    if op = .call then do
      let c ← p.beginCall type imm (children.map Node.type) depth
      evalArguments p held level depth 0 children
      match ← p.endCall held level c with
      | some r => pure r
      | none => unsupported op type .callWithoutResult
    else do
      let dst ← p.register type depth
      match op with
      | .load =>
        match imm with
        | .parm i =>
          .instr (.load (.ofType type) dst .frame (frameOffset (p.frame.param i.toNat)))
        | _ => unsupported op type .notAValue
      | .const => constant type depth imm
      | .loadIndirect =>
        let address ← evalFirst p held level depth children
        .instr (.load (.ofType type) dst (.reg address.index) (accessOffset imm))
      | .rol =>
        p.checkRotation type
        let (_, count) ← evalPair p held level depth children
        p.rotateLeft type.isWide depth count.index
      | .neg =>
        let _ ← evalFirst p held level depth children
        .instr (.intNeg type.isWide depth)
      | .sqrt =>
        p.checkSquareRoot type
        let _ ← evalFirst p held level depth children
        .instr (.floatSqrt (type == .double) depth)
      | op =>
        match type.isVector, op.vectorOp?, IntOp.ofOpcode? op with
        | true, some _, _ =>
          let (vop, l) ← lanewise op type
          p.checkVector vop l
          let (_, rhs) ← evalPair p held level depth children
          p.combineVectors vop l depth rhs.index
        | _, vop, iop =>
          match type.isFloating, vop, iop with
          | true, some vop, _ =>
            let (_, rhs) ← evalPair p held level depth children
            .instr (.floatOp (.ofVector vop) (type == .double) depth rhs.index)
          | _, _, some iop =>
            let (_, rhs) ← evalPair p held level depth children
            .instr (.intOp iop type.isWide depth rhs.index)
          | _, _, none => unsupported op type .notAValue
      pure dst

/-- Evaluates the first of some trees. -/
def evalFirst (p : Plan) (held : List Reg) (level depth : Nat) : List Node → Lowering Reg
  | a :: _ => eval p held level depth a
  | [] => .fail (.unsupported "node" .noType .missingOperand)

/-- Evaluates the first two of some trees, the second one while the first is waited for. -/
def evalPair (p : Plan) (held : List Reg) (level depth : Nat) : List Node → Lowering (Reg × Reg)
  | a :: b :: _ => do
    let lhs ← eval p held level depth a
    let rhs ← eval p (held ++ [lhs]) level (depth + 1) b
    pure (lhs, rhs)
  | _ => .fail (.unsupported "node" .noType .missingOperand)

/-- Evaluates the arguments of a call from index `j` on and puts them into their slots. -/
def evalArguments (p : Plan) (held : List Reg) (level depth : Nat) :
    (j : Nat) → List Node → Lowering Unit
  | _, [] => pure ()
  | j, n :: ns => do
    let value ← eval p held (level + 1) depth n
    .instr (.store (.slot n.type) value .frame (frameOffset (p.frame.staging level j)))
    evalArguments p held level depth (j + 1) ns

end

/-! ## Methods -/

/-- The label of the block that a branch goes to. -/
def target (p : Plan) (op : Opcode) (type : DataType) (imm : Immediate) : Lowering Nat :=
  match imm with
  | .target t => if t < p.blocks then pure t else unsupported op type (.noBlock t)
  | _ => unsupported op type .branchWithoutTarget

/-- The label of the end of the method. -/
def epilogue (p : Plan) : Nat := p.blocks

/-- Lowers a tree of a block.  A return that is the `last` tree of the method needs no jump to its
end. -/
def treetop (p : Plan) (last : Bool) (n : Node) : Lowering Unit := do
  match n.op with
  | .storeIndirect =>
    let (address, value) ← p.evalPair [] 0 0 n.children
    .instr (.store (.ofType n.type) value (.reg address.index) n.offset)
  | .ret =>
    if !n.children.isEmpty then
      let value ← p.evalFirst [] 0 0 n.children
      .instr (.moveResult value)
    if !last then .op (.transfer (.jump p.epilogue))
  | .goto =>
    let label ← p.target n.op n.type n.imm
    .op (.transfer (.jump label))
  | .ifcmp c =>
    let (lhs, rhs) ← p.evalPair [] 0 0 n.children
    .instr (.compare n.type.isWide lhs.index rhs.index)
    let label ← p.target n.op n.type n.imm
    .op (.transfer (.branchIf c label))
  | .call =>
    let c ← p.beginCall n.type n.imm (n.children.map Node.type) 0
    p.evalArguments [] 0 0 0 n.children
    let _ ← p.endCall [] 0 c
  | _ =>
    let _ ← p.eval [] 0 0 n

/-- Lowers the trees of a block, which is the `final` one or not. -/
def trees (p : Plan) (final : Bool) : List Node → Lowering Unit
  | [] => pure ()
  | n :: ns => do
    p.treetop (final && ns.isEmpty) n
    p.trees final ns

/-- Lowers the blocks from an index on. -/
def blocksFrom (p : Plan) : (index : Nat) → List Block → Lowering Unit
  | _, [] => pure ()
  | index, b :: bs => do
    .op (.bind index)
    p.trees bs.isEmpty b.trees
    p.blocksFrom (index + 1) bs

end Plan

/-- The most values that can be waited for at a time. -/
def Isa.deepest (isa : Isa) : Nat := max (isa.pool .general) (isa.pool .vector)

/-- Lowers a method whose flow of control has been checked. -/
def Method.lower (m : Method) (cpu : Cpu) (fallback : VectorFallback) : Lowering Unit := do
  match cpu.isa.convention.assignAll m.params with
  | none => .fail (.unsupported "method" m.returnType (.parameters m.params))
  | some arguments =>
    let p : Plan := ⟨cpu, fallback, Frame.plan m cpu.isa.deepest, m.blocks.length⟩
    .instr (.prologue (UInt32.ofNat p.frame.size))
    (arguments.zip m.params).zipIdx.forM fun ((argument, type), i) =>
      .instr (.spillArg argument (.slot type) (frameOffset (p.frame.param i)))
    p.blocksFrom 0 m.blocks
    .op (.bind p.epilogue)
    .instr .epilogue

end TreeCode
