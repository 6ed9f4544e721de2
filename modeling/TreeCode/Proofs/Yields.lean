import Mathlib.Algebra.Ring.Nat
import Mathlib.Tactic.Common
import TreeCode.Lowering

/-!
# What lowering yields

Lowering is taken apart.  `Plan.Own` lists the kinds of nodes that there are and what is done for
each of them; whatever is said of lowering a tree is said of these kinds, one after the other.
Lowering that ends without an error yields the operations of the operands followed by those of the
node (`Plan.Evaluated`).
-/

namespace TreeCode

namespace Lowering

variable {α β : Type}

/-- Lowering ends without an error, with these operations and this result. -/
def Yields (x : Lowering α) (ops : List Op) (a : α) : Prop := x.ops = ops ∧ x.result = .ok a

lemma yields_pure_iff {a b : α} {ops : List Op} :
    (Pure.pure a : Lowering α).Yields ops b ↔ ops = [] ∧ b = a := by
  change [] = ops ∧ Except.ok a = Except.ok b ↔ _
  rw [Except.ok.injEq, eq_comm, eq_comm (a := a)]

lemma yields_bind_iff {x : Lowering α} {f : α → Lowering β} {ops : List Op} {b : β} :
    (x >>= f).Yields ops b ↔
      ∃ o₁ a o₂, x.Yields o₁ a ∧ (f a).Yields o₂ b ∧ ops = o₁ ++ o₂ := by
  obtain ⟨o₁, n, result⟩ := x
  cases result with
  | error e => simp [Yields, Bind.bind, Lowering.bind]
  | ok a => simp [Yields, Bind.bind, Lowering.bind, eq_comm, and_comm]

lemma yields_map_iff {x : Lowering α} {f : α → β} {ops : List Op} {b : β} :
    (f <$> x).Yields ops b ↔ ∃ a, x.Yields ops a ∧ b = f a := by
  change (x >>= fun a => Pure.pure (f a)).Yields ops b ↔ _
  simp [yields_bind_iff, yields_pure_iff]

@[simp] lemma not_yields_fail {e : CodeError} {ops : List Op} {a : α} :
    ¬ (fail e : Lowering α).Yields ops a := by
  simp [Yields, fail]

@[simp] lemma not_yields_unsupported {op : Opcode} {type : DataType} {o : Obstacle} {ops : List Op}
    {a : α} : ¬ (Plan.unsupported op type o : Lowering α).Yields ops a := not_yields_fail

lemma yields_ensure_iff {condition : Bool} {e : CodeError} {ops : List Op} {u : Unit} :
    (ensure condition e).Yields ops u ↔ condition = true ∧ ops = [] := by
  cases condition <;> simp [ensure, yields_pure_iff]

lemma yields_op_iff {o : Op} {ops : List Op} {u : Unit} : (op o).Yields ops u ↔ ops = [o] := by
  simp [Yields, op, eq_comm]

lemma yields_instr_iff {i : Instr} {ops : List Op} {u : Unit} :
    (instr i).Yields ops u ↔ ops = [.instr i] := yields_op_iff

lemma yields_then_pure_iff {x : Lowering Unit} {a b : α} {ops : List Op} :
    (x >>= fun _ => Pure.pure a).Yields ops b ↔ x.Yields ops () ∧ b = a := by
  simp only [yields_bind_iff, yields_pure_iff]
  constructor
  · rintro ⟨o, _, _, hx, ⟨rfl, hb⟩, rfl⟩
    exact ⟨by simpa using hx, hb⟩
  · rintro ⟨hx, hb⟩
    exact ⟨ops, (), [], hx, ⟨rfl, hb⟩, by simp⟩

/-- Instructions for the members of a list one after the other. -/
lemma yields_forM_iff {l : List α} {f : α → Lowering Unit} {g : α → Instr} {ops : List Op}
    {u : Unit} (hf : ∀ a, f a = instr (g a)) :
    (l.forM f).Yields ops u ↔ ops = l.map fun a => .instr (g a) := by
  induction l generalizing ops with
  | nil => exact yields_pure_iff.trans (by simp)
  | cons a l ih =>
    rw [show (a :: l).forM f = f a >>= fun _ => l.forM f from rfl, yields_bind_iff]
    simp only [hf, yields_instr_iff, ih]
    simp

end Lowering

namespace Plan

open Lowering hiding pure bind

variable {p : Plan} {held : List Reg} {level depth : Nat} {type : DataType} {imm : Immediate}
  {children : List Node} {ops : List Op} {op : Opcode}

/-- The register for a value of a type at a depth. -/
def slotOf (type : DataType) (depth : Nat) : Reg := .inBank (Bank.ofType type) depth

lemma yields_register_iff {r : Reg} : (p.register type depth).Yields ops r ↔
    depth < p.cpu.isa.pool (Bank.ofType type) ∧ ops = [] ∧ r = slotOf type depth := by
  unfold register slotOf
  by_cases h : depth < p.cpu.isa.pool (Bank.ofType type) <;> simp [h, yields_pure_iff]

/-! ## Nodes -/

/-- What a node that is no call does once there is a register for its value, by the kind of the
node: its operands come first, and behind them its own instructions. -/
inductive Own (p : Plan) (held : List Reg) (level depth : Nat) (op : Opcode) (type : DataType)
    (imm : Immediate) (children : List Node) : Lowering Unit → Prop
  | load {i : UInt32} (op_eq : op = .load) (imm_eq : imm = .parm i) :
      Own p held level depth op type imm children
        (.instr (.load (.ofType type) (slotOf type depth) .frame
          (frameOffset (p.frame.param i.toNat))))
  | const (op_eq : op = .const) :
      Own p held level depth op type imm children (constant type depth imm)
  | loadIndirect (op_eq : op = .loadIndirect) :
      Own p held level depth op type imm children (do
        let a ← p.evalFirst held level depth children
        .instr (.load (.ofType type) (slotOf type depth) (.reg a.index) (accessOffset imm)))
  | neg (op_eq : op = .neg) :
      Own p held level depth op type imm children (do
        let _ ← p.evalFirst held level depth children
        .instr (.intNeg type.isWide depth))
  | sqrt (op_eq : op = .sqrt) :
      Own p held level depth op type imm children (do
        let _ ← p.evalFirst held level depth children
        .instr (.floatSqrt (type == .double) depth))
  | rol (op_eq : op = .rol) :
      Own p held level depth op type imm children (do
        let ab ← p.evalPair held level depth children
        p.rotateLeft type.isWide depth ab.2.index)
  | vector {l : Lane} {vop : VectorOp} (type_eq : type = .vector l)
      (op_eq : op.vectorOp? = some vop) :
      Own p held level depth op type imm children (do
        p.checkVector vop l
        let ab ← p.evalPair held level depth children
        p.combineVectors vop l depth ab.2.index)
  | floating {vop : VectorOp} (floating : type.isFloating) (op_eq : op.vectorOp? = some vop) :
      Own p held level depth op type imm children (do
        let ab ← p.evalPair held level depth children
        .instr (.floatOp (.ofVector vop) (type == .double) depth ab.2.index))
  | integer {iop : IntOp} (op_eq : IntOp.ofOpcode? op = some iop)
      (scalar : op.vectorOp?.isSome → type.lane? = none ∧ type.isFloating = false) :
      Own p held level depth op type imm children (do
        let ab ← p.evalPair held level depth children
        .instr (.intOp iop type.isWide depth ab.2.index))
  | noParameter (op_eq : op = .load) (imm_ne : ∀ i, imm ≠ .parm i) :
      Own p held level depth op type imm children (unsupported op type .notAValue)
  | noValue (op_ne : op ∉ [.load, .const, .loadIndirect, .rol, .neg, .sqrt])
      (no_integer : IntOp.ofOpcode? op = none)
      (scalar : op.vectorOp?.isSome → type.lane? = none ∧ type.isFloating = false) :
      Own p held level depth op type imm children (unsupported op type .notAValue)

/-- An operation that is done neither on lanes nor on floating point numbers, though it could be. -/
lemma scalar_of_unmatched
    (hlane : ∀ vop, type.isVector = true → op.vectorOp? = some vop → False)
    (hfloating : ∀ vop, type.isFloating = true → op.vectorOp? = some vop → False)
    (h : op.vectorOp?.isSome) : type.lane? = none ∧ type.isFloating = false := by
  obtain ⟨vop, hvop⟩ := Option.isSome_iff_exists.mp h
  exact ⟨Option.not_isSome_iff_eq_none.mp fun hvector => hlane vop hvector hvop,
    Bool.eq_false_iff.mpr fun h => hfloating vop h hvop⟩

/-- The register for a value is the one for its type at the depth. -/
lemma register_then {α : Type} (p : Plan) (type : DataType) (depth : Nat) (f : Reg → Lowering α) :
    p.register type depth >>= f = p.register type depth >>= fun _ => f (slotOf type depth) := by
  unfold register
  dsimp only
  split
  · exact (pure_then _ f).trans (pure_then (slotOf type depth) fun _ => f _).symm
  · rfl

/-- A node that is no call gets a register for its value, and then does what is its own. -/
theorem exists_own (p : Plan) (held : List Reg) (level depth : Nat) (type : DataType)
    (imm : Immediate) (children : List Node) (hop : op ≠ .call) :
    ∃ own, Own p held level depth op type imm children own ∧
      p.eval held level depth (.node op type imm children) =
        p.register type depth >>= fun _ => own >>= fun _ => Pure.pure (slotOf type depth) := by
  rw [eval, if_neg hop, register_then]
  split
  case h_1 =>
    split
    · exact ⟨_, .load rfl rfl, rfl⟩
    · rename_i himm
      exact ⟨_, .noParameter rfl himm, rfl⟩
  case h_2 => exact ⟨_, .const rfl, rfl⟩
  case h_3 => exact ⟨_, .loadIndirect rfl, by simp only [then_assoc]⟩
  case h_4 => exact ⟨_, .rol rfl, by simp only [checkRotation_then, then_assoc]⟩
  case h_5 => exact ⟨_, .neg rfl, by simp only [then_assoc]⟩
  case h_6 => exact ⟨_, .sqrt rfl, by simp only [checkSquareRoot_then, then_assoc]⟩
  case h_7 hload hconst hindirect hrol hneg hsqrt =>
    split
    · rename_i vop hvector hvop
      obtain ⟨l, rfl⟩ := DataType.isVector_iff.mp hvector
      exact ⟨_, .vector rfl hvop, by simp only [lanewise_then hvop, then_assoc]⟩
    · rename_i hlane
      split
      · rename_i vop hfloating hvop
        exact ⟨_, .floating hfloating hvop, by simp only [then_assoc]⟩
      · rename_i iop hiop hfloating
        exact ⟨_, .integer hiop (scalar_of_unmatched hlane hfloating), by simp only [then_assoc]⟩
      · rename_i hiop hfloating
        have hne : op ∉ [.load, .const, .loadIndirect, .rol, .neg, .sqrt] := by
          simpa using ⟨hload, hconst, hindirect, hrol, hneg, hsqrt⟩
        exact ⟨_, .noValue hne hiop (scalar_of_unmatched hlane hfloating), rfl⟩

/-! ## Calls -/

/-- Saving registers in the frame. -/
def saveOps (p : Plan) (held : List Reg) : List Op :=
  held.zipIdx.map fun (r, k) =>
    .instr (.store (.whole r.bank) r .frame (frameOffset (p.frame.spill k)))

/-- Restoring registers from the frame. -/
def restoreOps (p : Plan) (held : List Reg) : List Op :=
  held.zipIdx.map fun (r, k) =>
    .instr (.load (.whole r.bank) r .frame (frameOffset (p.frame.spill k)))

/-- Loading the argument registers from a row of the frame. -/
def loadOps (p : Plan) (level : Nat) (arguments : List (Argument × DataType)) : List Op :=
  arguments.zipIdx.map fun ((argument, type), j) =>
    .instr (.loadArg argument (.slot type) (frameOffset (p.frame.staging level j)))

/-- Taking the result of a call, if it has one. -/
def takeOps (result : Option Reg) : List Op :=
  (result.map fun r => Op.instr (.takeResult r)).toList

/-- A call whose arguments are in their row of the frame. -/
def callOps (p : Plan) (held : List Reg) (level : Nat) (c : PendingCall) : List Op :=
  p.saveOps held ++ (p.loadOps level c.arguments ++
    (.transfer (.call c.target) :: (takeOps c.result ++ p.restoreOps held)))

lemma yields_endCall_iff {c : PendingCall} {result : Option Reg} :
    (p.endCall held level c).Yields ops result ↔
      ops = p.callOps held level c ∧ result = c.result := by
  have hsave {ops u} : (p.save held).Yields ops u ↔ ops = p.saveOps held :=
    yields_forM_iff fun _ => rfl
  have hrestore {ops u} : (p.restore held).Yields ops u ↔ ops = p.restoreOps held :=
    yields_forM_iff fun _ => rfl
  obtain ⟨target, arguments, taken⟩ := c
  have hload {ops u} : (arguments.zipIdx.forM fun ((argument, type), j) =>
      instr (.loadArg argument (.slot type) (frameOffset (p.frame.staging level j)))).Yields ops u ↔
        ops = p.loadOps level arguments := yields_forM_iff fun _ => rfl
  cases taken <;>
    simp only [endCall, yields_bind_iff, hsave, hload, yields_op_iff, yields_instr_iff, hrestore,
      yields_pure_iff] <;>
    simp [callOps, takeOps, and_comm]

/-- A call to a target with arguments of the given types, whose result is taken if it has one. -/
structure Begun (p : Plan) (type : DataType) (imm : Immediate) (types : List DataType)
    (depth : Nat) (target : UInt64) (arguments : List Argument) (result : Option Reg) : Prop where
  target_eq : imm = .address target
  assigned : p.cpu.isa.convention.assignAll types = some arguments
  result_eq : result = if type = .noType then none else some (slotOf type depth)
  depth_lt : type ≠ .noType → depth < p.cpu.isa.pool (Bank.ofType type)

lemma begun_of_beginCall {types : List DataType} {c : PendingCall}
    (h : (p.beginCall type imm types depth).Yields ops c) :
    ops = [] ∧ ∃ target arguments, p.Begun type imm types depth target arguments c.result ∧
      c = ⟨target, arguments.zip types, c.result⟩ := by
  unfold beginCall at h
  split at h
  · rename_i target
    split at h
    · exact (not_yields_unsupported h).elim
    · rename_i arguments hassigned
      by_cases htype : type = .noType
      · simp only [if_pos htype, yields_bind_iff, yields_pure_iff] at h
        obtain ⟨o₁, r, o₂, ⟨rfl, rfl⟩, ⟨rfl, rfl⟩, rfl⟩ := h
        exact ⟨rfl, target, arguments, ⟨rfl, hassigned, by simp [htype], fun h => (h htype).elim⟩,
          rfl⟩
      · simp only [if_neg htype, yields_bind_iff, yields_pure_iff, yields_map_iff,
          yields_register_iff] at h
        obtain ⟨o₁, r, o₂, ⟨_, ⟨hdepth, rfl, rfl⟩, rfl⟩, ⟨rfl, rfl⟩, rfl⟩ := h
        exact ⟨rfl, target, arguments, ⟨rfl, hassigned, by simp [htype], fun _ => hdepth⟩, rfl⟩
  · exact (not_yields_unsupported h).elim

/-! ## Trees -/

lemma yields_evalFirst_iff {r : Reg} : (p.evalFirst held level depth children).Yields ops r ↔
    ∃ a rest, children = a :: rest ∧ (p.eval held level depth a).Yields ops r := by
  cases children <;> simp [evalFirst]

lemma yields_evalPair_iff {lhs rhs : Reg} :
    (p.evalPair held level depth children).Yields ops (lhs, rhs) ↔
      ∃ a b rest o₁ o₂, children = a :: b :: rest ∧ (p.eval held level depth a).Yields o₁ lhs ∧
        (p.eval (held ++ [lhs]) level (depth + 1) b).Yields o₂ rhs ∧ ops = o₁ ++ o₂ := by
  rcases children with _ | ⟨a, _ | ⟨b, rest⟩⟩
  · simp [evalPair]
  · simp [evalPair]
  · simp only [evalPair, yields_bind_iff, yields_pure_iff, Prod.mk.injEq]
    constructor
    · rintro ⟨o₁, _, _, ha, ⟨o₂, _, _, hb, ⟨rfl, rfl, rfl⟩, rfl⟩, rfl⟩
      exact ⟨a, b, rest, o₁, o₂, rfl, ha, hb, by simp⟩
    · rintro ⟨_, _, _, o₁, o₂, heq, ha, hb, rfl⟩
      cases heq
      exact ⟨o₁, lhs, o₂, ha, ⟨o₂, rhs, [], hb, ⟨rfl, rfl, rfl⟩, by simp⟩, rfl⟩

lemma yields_evalArguments_cons_iff {j : Nat} {n : Node} {ns : List Node} {u : Unit} :
    (p.evalArguments held level depth j (n :: ns)).Yields ops u ↔
      ∃ o₁ r o₂, (p.eval held (level + 1) depth n).Yields o₁ r ∧
        (p.evalArguments held level depth (j + 1) ns).Yields o₂ u ∧
        ops = o₁ ++ (.instr (.store (.slot n.type) r .frame
          (frameOffset (p.frame.staging level j))) :: o₂) := by
  simp only [evalArguments, yields_bind_iff, yields_instr_iff]
  constructor
  · rintro ⟨o₁, r, _, hn, ⟨_, _, o₂, rfl, hns, rfl⟩, rfl⟩
    exact ⟨o₁, r, o₂, hn, hns, rfl⟩
  · rintro ⟨o₁, r, o₂, hn, hns, rfl⟩
    exact ⟨o₁, r, _, hn, ⟨_, (), o₂, rfl, hns, rfl⟩, rfl⟩

lemma yields_evalArguments_nil_iff {j : Nat} {u : Unit} :
    (p.evalArguments held level depth j []).Yields ops u ↔ ops = [] := by
  simp [evalArguments, yields_pure_iff]

lemma ops_of_checkVector {vop : VectorOp} {l : Lane} {u : Unit}
    (h : (p.checkVector vop l).Yields ops u) : ops = [] := by
  rw [checkVector_eq, yields_ensure_iff] at h
  exact h.2

/-- The bits of a floating point constant of a type. -/
def constantBits (type : DataType) (bits : UInt64) : UInt64 :=
  if type = .double then bits else (Number.narrow bits).toUInt64

/-- The operations of a node and the register that its value is left in, by the kind of the node. -/
inductive Evaluated (p : Plan) (held : List Reg) (level depth : Nat) (op : Opcode) (type : DataType)
    (imm : Immediate) (children : List Node) : List Op → Prop
  | load {i : UInt32} (op_eq : op = .load) (imm_eq : imm = .parm i) :
      Evaluated p held level depth op type imm children
        [.instr (.load (.ofType type) (slotOf type depth) .frame
          (frameOffset (p.frame.param i.toNat)))]
  | int {v : Int64} (op_eq : op = .const) (imm_eq : imm = .int v) :
      Evaluated p held level depth op type imm children [.instr (.movImm depth v type.isWide)]
  | float {bits : UInt64} (op_eq : op = .const) (imm_eq : imm = .float bits) :
      Evaluated p held level depth op type imm children
        [.instr (.fmovImm depth (constantBits type bits) (type = .double))]
  | loadIndirect {ops : List Op} {a : Reg} (op_eq : op = .loadIndirect)
      (address : (p.evalFirst held level depth children).Yields ops a) :
      Evaluated p held level depth op type imm children
        (ops ++ [.instr (.load (.ofType type) (slotOf type depth) (.reg a.index)
          (accessOffset imm))])
  | neg {ops : List Op} {a : Reg} (op_eq : op = .neg)
      (operand : (p.evalFirst held level depth children).Yields ops a) :
      Evaluated p held level depth op type imm children
        (ops ++ [.instr (.intNeg type.isWide depth)])
  | sqrt {ops : List Op} {a : Reg} (op_eq : op = .sqrt)
      (operand : (p.evalFirst held level depth children).Yields ops a) :
      Evaluated p held level depth op type imm children
        (ops ++ [.instr (.floatSqrt (type == .double) depth)])
  | rol {ops own : List Op} {a b : Reg} (op_eq : op = .rol)
      (operands : (p.evalPair held level depth children).Yields ops (a, b))
      (rotates : (p.rotateLeft type.isWide depth b.index).Yields own ()) :
      Evaluated p held level depth op type imm children (ops ++ own)
  | vector {ops own : List Op} {a b : Reg} {l : Lane} {vop : VectorOp}
      (lane_eq : type.lane? = some l) (op_eq : op.vectorOp? = some vop)
      (operands : (p.evalPair held level depth children).Yields ops (a, b))
      (combines : (p.combineVectors vop l depth b.index).Yields own ()) :
      Evaluated p held level depth op type imm children (ops ++ own)
  | floating {ops : List Op} {a b : Reg} {vop : VectorOp}
      (floating : type.isFloating) (op_eq : op.vectorOp? = some vop)
      (operands : (p.evalPair held level depth children).Yields ops (a, b)) :
      Evaluated p held level depth op type imm children
        (ops ++ [.instr (.floatOp (.ofVector vop) (type == .double) depth b.index)])
  | integer {ops : List Op} {a b : Reg} {iop : IntOp} (op_eq : IntOp.ofOpcode? op = some iop)
      (scalar : op.vectorOp?.isSome → type.lane? = none ∧ type.isFloating = false)
      (operands : (p.evalPair held level depth children).Yields ops (a, b)) :
      Evaluated p held level depth op type imm children
        (ops ++ [.instr (.intOp iop type.isWide depth b.index)])
  | call {ops : List Op} {target : UInt64} {arguments : List Argument} (op_eq : op = .call)
      (begun : p.Begun type imm (children.map Node.type) depth target arguments
        (some (slotOf type depth)))
      (operands : (p.evalArguments held level depth 0 children).Yields ops ()) :
      Evaluated p held level depth op type imm children (ops ++ p.callOps held level
        ⟨target, arguments.zip (children.map Node.type), some (slotOf type depth)⟩)

lemma yields_constant {u : Unit} (hop : op = .const)
    (h : (constant type depth imm).Yields ops u) :
    Evaluated p held level depth op type imm children ops := by
  unfold constant at h
  split at h
  · rename_i v
    obtain rfl := yields_instr_iff.mp h
    exact .int hop rfl
  · rename_i bits
    have hops : ops = [.instr (.fmovImm depth (constantBits type bits) (type = .double))] := by
      by_cases htype : type = .double
      · rw [if_pos htype] at h
        simpa [htype, constantBits] using yields_instr_iff.mp h
      · rw [if_neg htype] at h
        simpa [htype, constantBits] using yields_instr_iff.mp h
    rw [hops]
    exact .float hop rfl
  · exact (not_yields_unsupported h).elim

/-- The operations of a node that is no call. -/
lemma evaluated_of_own {own : Lowering Unit}
    (hown : Own p held level depth op type imm children own) (h : own.Yields ops ()) :
    Evaluated p held level depth op type imm children ops := by
  cases hown with
  | load hop himm =>
    obtain rfl := yields_instr_iff.mp h
    exact .load hop himm
  | const hop => exact yields_constant hop h
  | loadIndirect hop =>
    obtain ⟨o₁, a, o₂, ha, hload, rfl⟩ := yields_bind_iff.mp h
    obtain rfl := yields_instr_iff.mp hload
    exact .loadIndirect hop ha
  | neg hop =>
    obtain ⟨o₁, a, o₂, ha, hneg, rfl⟩ := yields_bind_iff.mp h
    obtain rfl := yields_instr_iff.mp hneg
    exact .neg hop ha
  | sqrt hop =>
    obtain ⟨o₁, a, o₂, ha, hsqrt, rfl⟩ := yields_bind_iff.mp h
    obtain rfl := yields_instr_iff.mp hsqrt
    exact .sqrt hop ha
  | rol hop =>
    obtain ⟨o₁, ⟨a, b⟩, o₂, hab, hrotates, rfl⟩ := yields_bind_iff.mp h
    exact .rol hop hab hrotates
  | vector htype hop =>
    obtain ⟨o₁, u, o₂, hcheck, hrest, rfl⟩ := yields_bind_iff.mp h
    obtain rfl := ops_of_checkVector hcheck
    obtain ⟨o₁, ⟨a, b⟩, o₂, hab, hcombines, rfl⟩ := yields_bind_iff.mp hrest
    rw [List.nil_append]
    exact .vector (by rw [htype]; rfl) hop hab hcombines
  | floating hfloating hop =>
    obtain ⟨o₁, ⟨a, b⟩, o₂, hab, hfloat, rfl⟩ := yields_bind_iff.mp h
    obtain rfl := yields_instr_iff.mp hfloat
    exact .floating hfloating hop hab
  | integer hop hscalar =>
    obtain ⟨o₁, ⟨a, b⟩, o₂, hab, hint, rfl⟩ := yields_bind_iff.mp h
    obtain rfl := yields_instr_iff.mp hint
    exact .integer hop hscalar hab
  | noParameter | noValue => exact (not_yields_unsupported h).elim

/-- The operations of a tree are of one of the kinds, and its value is left in the register for its
type at the depth. -/
theorem evaluated_of_eval {r : Reg}
    (h : (p.eval held level depth (.node op type imm children)).Yields ops r) :
    r = slotOf type depth ∧ depth < p.cpu.isa.pool (Bank.ofType type) ∧
      Evaluated p held level depth op type imm children ops := by
  by_cases hcall : op = .call
  · rw [eval, if_pos hcall] at h
    simp only [yields_bind_iff, yields_endCall_iff] at h
    obtain ⟨o₁, c, o₂, hbegin, ⟨o₃, u, o₄, hargs, ⟨o₅, result, o₆, ⟨rfl, rfl⟩, hresult, rfl⟩, rfl⟩,
      rfl⟩ := h
    obtain ⟨rfl, target, arguments, hbegun, hc⟩ := begun_of_beginCall hbegin
    split at hresult
    · rename_i r' hr
      obtain ⟨rfl, rfl⟩ := yields_pure_iff.mp hresult
      have htype : type ≠ .noType := by
        intro htype
        simp [hbegun.result_eq, htype] at hr
      have hslot : c.result = some (slotOf type depth) := by
        rw [hbegun.result_eq, if_neg htype]
      obtain rfl : r = slotOf type depth := by simpa [hslot] using hr.symm
      rw [hslot] at hbegun hc
      rw [hc, List.nil_append, List.append_nil]
      exact ⟨rfl, hbegun.depth_lt htype, .call hcall hbegun hargs⟩
    · exact (not_yields_unsupported hresult).elim
  · obtain ⟨own, hown, heval⟩ := p.exists_own held level depth type imm children hcall
    rw [heval] at h
    obtain ⟨_, _, o, hregister, hrest, rfl⟩ := yields_bind_iff.mp h
    obtain ⟨hdepth, rfl, -⟩ := yields_register_iff.mp hregister
    obtain ⟨ho, rfl⟩ := yields_then_pure_iff.mp hrest
    exact ⟨rfl, hdepth, evaluated_of_own hown ho⟩

end Plan

end TreeCode
