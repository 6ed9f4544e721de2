import Mathlib.Tactic.Common
import TreeCode.Proofs.Calls
import TreeCode.Proofs.WellTyped

/-!
# Where trees call

The operations of a tree are straight code, and its calls stand in them in the order in which they
are made.
-/

namespace TreeCode

namespace Opcode.Accepts

variable {op : Opcode} {type : DataType} {operands : List DataType}

/-- Operands of an operation that there is on vectors too. -/
lemma of_vectorOp? {vop : VectorOp} (h : op.Accepts type operands) (hop : op.vectorOp? = some vop) :
    operands = [type, type] := by
  cases op <;> simp_all [Accepts, vectorOp?]

/-- Operands of an operation on integers. -/
lemma of_ofOpcode? {iop : IntOp} (h : op.Accepts type operands)
    (hop : IntOp.ofOpcode? op = some iop)
    (hscalar : op.vectorOp?.isSome → type.lane? = none ∧ type.isFloating = false) :
    type.isWord ∧ ∃ right, operands = [type, right] ∧ iop.TakesRight type right := by
  have hvector : type.lane? = none → type.isVector = false := by
    intro hlane
    rw [DataType.isVector, hlane]
    rfl
  cases op <;> simp_all [Accepts, vectorOp?, IntOp.ofOpcode?, IntOp.TakesRight] <;>
    (obtain rfl := hop; simp [IntOp.takesCount])

/-- What is neither a store nor the end of a block has a value, but for calls without a result. -/
lemma producesValue {imm : Immediate} {children : List Node} (h : op.Accepts type operands)
    (hstore : op ≠ .storeIndirect) (hret : op ≠ .ret) (hgoto : op ≠ .goto)
    (hifcmp : ∀ c, op ≠ .ifcmp c) (hcall : op ≠ .call) :
    (Node.node op type imm children).producesValue := by
  have htype : type ≠ .noType := by
    rintro rfl
    cases op <;> simp_all [Accepts, DataType.isScalar, DataType.isWord, DataType.isFloating,
      DataType.isVector, DataType.lane?]
  cases op <;> simp_all [Node.producesValue, Node.op, Node.type]

end Opcode.Accepts

/-- Lowering that yields straight code without calls. -/
def Lowering.IsStraight {α : Type} (x : Lowering α) : Prop :=
  ∀ ops a, x.Yields ops a → Straight ops []

namespace Lowering.IsStraight

variable {α β : Type}

lemma pure (a : α) : (Pure.pure a : Lowering α).IsStraight := by
  rintro ops b h
  rw [(yields_pure_iff.mp h).1]
  exact .nil

lemma fail (e : CodeError) : (Lowering.fail e : Lowering α).IsStraight :=
  fun _ _ h => (not_yields_fail h).elim

lemma instr {i : Instr} (h : i ≠ .epilogue) : (Lowering.instr i).IsStraight := by
  rintro ops u hyields
  rw [yields_instr_iff.mp hyields]
  exact .instr h

lemma countScalarized : Lowering.countScalarized.IsStraight := by
  rintro ops u ⟨rfl, -⟩
  exact .nil

lemma bind {x : Lowering α} {f : α → Lowering β} (hx : x.IsStraight)
    (hf : ∀ a, (f a).IsStraight) : (x >>= f).IsStraight := by
  rintro ops b h
  obtain ⟨o₁, a, o₂, h₁, h₂, rfl⟩ := yields_bind_iff.mp h
  exact (hx o₁ a h₁).append (hf a o₂ b h₂)

lemma forM {l : List α} {f : α → Lowering PUnit} (hf : ∀ a, (f a).IsStraight) :
    (l.forM f).IsStraight := by
  induction l with
  | nil => exact pure ()
  | cons a l ih => exact (hf a).bind fun _ => ih

end Lowering.IsStraight

namespace Plan

open Lowering (IsStraight)

variable {p : Plan} {held : List Reg} {level depth : Nat} {s : Scope} {op : Opcode}
  {type : DataType} {imm : Immediate} {children : List Node} {ops : List Op} {r : Reg}

lemma isStraight_register : (p.register type depth).IsStraight := by
  intro ops r h
  rw [(yields_register_iff.mp h).2.1]
  exact .nil

lemma isStraight_rotateLeft (wide : Bool) (dst count : Nat) :
    (p.rotateLeft wide dst count).IsStraight := by
  unfold rotateLeft
  split
  · exact .instr (by nofun)
  · exact (IsStraight.instr (by nofun)).bind fun _ => .instr (by nofun)

lemma isStraight_lane (vop : VectorOp) (l : Lane) (lhs rhs : Reg) (offset : Nat) :
    (p.lane vop l lhs rhs offset).IsStraight := by
  unfold lane
  dsimp only
  refine (IsStraight.instr (by nofun)).bind fun _ => (IsStraight.instr (by nofun)).bind fun _ => ?_
  split
  · exact (IsStraight.instr (by nofun)).bind fun _ => .instr (by nofun)
  · split
    · exact (IsStraight.instr (by nofun)).bind fun _ => .instr (by nofun)
    · exact (IsStraight.fail _).bind fun _ => .instr (by nofun)

lemma isStraight_combineVectors (vop : VectorOp) (l : Lane) (rhs : Nat) :
    (p.combineVectors vop l depth rhs).IsStraight := by
  unfold combineVectors
  split
  · exact .instr (by nofun)
  · unfold scalarize
    refine IsStraight.countScalarized.bind fun _ => (IsStraight.instr (by nofun)).bind fun _ =>
      (IsStraight.instr (by nofun)).bind fun _ => isStraight_register.bind fun _ =>
        isStraight_register.bind fun _ => IsStraight.bind ?_ fun _ => .instr (by nofun)
    exact .forM fun _ => isStraight_lane _ _ _ _ _

/-! ## Operands -/

/-- The register of a tree. -/
lemma register_of_eval {n : Node} (h : (p.eval held level depth n).Yields ops r) :
    r = slotOf n.type depth ∧ depth < p.cpu.isa.pool (Bank.ofType n.type) := by
  obtain ⟨op, type, imm, children⟩ := n
  obtain ⟨hr, hdepth, -⟩ := evaluated_of_eval h
  exact ⟨hr, hdepth⟩

/-- The operands of a node that is no call, evaluated one after the other. -/
inductive Operands (p : Plan) (held : List Reg) (level depth : Nat) :
    List Node → List Op → Prop
  | none : Operands p held level depth [] []
  | one {a : Node} {ops : List Op} {r : Reg} (first : (p.eval held level depth a).Yields ops r) :
      Operands p held level depth [a] ops
  | two {a b : Node} {o₁ o₂ : List Op} {r r' : Reg}
      (first : (p.eval held level depth a).Yields o₁ r)
      (second : (p.eval (held ++ [r]) level (depth + 1) b).Yields o₂ r') :
      Operands p held level depth [a, b] (o₁ ++ o₂)

lemma exists_one {t : DataType} (h : children.map Node.type = [t])
    (hfirst : (p.evalFirst held level depth children).Yields ops r) :
    ∃ a, children = [a] ∧ a.type = t ∧ (p.eval held level depth a).Yields ops r := by
  obtain ⟨a, rest, rfl, ha⟩ := yields_evalFirst_iff.mp hfirst
  obtain ⟨htype, rfl⟩ : a.type = t ∧ rest = [] := by simpa using h
  exact ⟨a, rfl, htype, ha⟩

lemma exists_two {t u : DataType} {lhs rhs : Reg} (h : children.map Node.type = [t, u])
    (hpair : (p.evalPair held level depth children).Yields ops (lhs, rhs)) :
    ∃ a b o₁ o₂, children = [a, b] ∧ a.type = t ∧ b.type = u ∧
      (p.eval held level depth a).Yields o₁ lhs ∧
      (p.eval (held ++ [lhs]) level (depth + 1) b).Yields o₂ rhs ∧ ops = o₁ ++ o₂ := by
  obtain ⟨a, b, rest, o₁, o₂, rfl, ha, hb, rfl⟩ := yields_evalPair_iff.mp hpair
  obtain ⟨ht, hu, rfl⟩ : a.type = t ∧ b.type = u ∧ rest = [] := by simpa using h
  exact ⟨a, b, o₁, o₂, rfl, ht, hu, ha, hb, rfl⟩

lemma operands_of_first {t : DataType} (h : children.map Node.type = [t])
    (hfirst : (p.evalFirst held level depth children).Yields ops r) :
    p.Operands held level depth children ops := by
  obtain ⟨a, rfl, -, ha⟩ := exists_one h hfirst
  exact .one ha

lemma operands_of_pair {t u : DataType} {lhs rhs : Reg} (h : children.map Node.type = [t, u])
    (hpair : (p.evalPair held level depth children).Yields ops (lhs, rhs)) :
    p.Operands held level depth children ops := by
  obtain ⟨a, b, o₁, o₂, rfl, -, -, ha, hb, rfl⟩ := exists_two h hpair
  exact .two ha hb

/-- A node that is no call: its operands come first, then code of its own without calls. -/
lemma Evaluated.operands (h : p.Evaluated held level depth op type imm children ops)
    (hop : op ≠ .call) (haccepts : op.Accepts type (children.map Node.type)) :
    ∃ before own, p.Operands held level depth children before ∧ Straight own [] ∧
      ops = before ++ own := by
  cases h with
  | load hop _ | int hop _ | float hop _ =>
    subst hop
    obtain rfl : children = [] := by simpa using haccepts.2
    exact ⟨[], _, .none, .instr (by nofun), rfl⟩
  | loadIndirect hop haddress =>
    subst hop
    exact ⟨_, _, operands_of_first haccepts.2 haddress, .instr (by nofun), rfl⟩
  | neg hop hoperand | sqrt hop hoperand =>
    subst hop
    exact ⟨_, _, operands_of_first haccepts.2 hoperand, .instr (by nofun), rfl⟩
  | rol hop hoperands hown =>
    subst hop
    exact ⟨_, _, operands_of_pair haccepts.2 hoperands, isStraight_rotateLeft _ _ _ _ _ hown, rfl⟩
  | vector _ hvop hoperands hown =>
    exact ⟨_, _, operands_of_pair (haccepts.of_vectorOp? hvop) hoperands,
      isStraight_combineVectors _ _ _ _ _ hown, rfl⟩
  | floating _ hvop hoperands =>
    exact ⟨_, _, operands_of_pair (haccepts.of_vectorOp? hvop) hoperands, .instr (by nofun), rfl⟩
  | integer hiop hscalar hoperands =>
    obtain ⟨-, right, htypes, -⟩ := haccepts.of_ofOpcode? hiop hscalar
    exact ⟨_, _, operands_of_pair htypes hoperands, .instr (by nofun), rfl⟩
  | call hcall => exact (hop hcall).elim

/-! ## The code of a tree -/

/-- Straight code with the calls of some trees, none of which is wide. -/
structure Sited (ops : List Op) (sites : List CallSite) (shape : CallShape) : Prop where
  straight : Straight ops sites
  width_le : shape.width ≤ 16

/-- No call has more arguments than there are registers for them. -/
lemma Begun.length_le {types : List DataType} {target : UInt64} {arguments : List Argument}
    {result : Option Reg} (h : p.Begun type imm types depth target arguments result) :
    types.length ≤ 16 := Isa.length_le_of_assignAll h.assigned

/-- The arguments of a call, if it is so of each of them. -/
lemma sited_of_evalArguments {j : Nat} {u : Unit}
    (hns : ∀ c ∈ children, ∀ {held level depth ops r},
      (p.eval held level depth c).Yields ops r → Sited ops c.callSites c.callShape)
    (h : (p.evalArguments held level depth j children).Yields ops u) :
    Sited ops (Node.callSitesOf children) (Node.callShapes children) := by
  induction children generalizing j ops with
  | nil =>
    rw [yields_evalArguments_nil_iff.mp h]
    exact ⟨.nil, Nat.zero_le _⟩
  | cons n ns ih =>
    rw [List.forall_mem_cons] at hns
    obtain ⟨o₁, r, o₂, hn, hrest, rfl⟩ := yields_evalArguments_cons_iff.mp h
    obtain ⟨hstraight, hwidth⟩ := hns.1 hn
    obtain ⟨hstraight', hwidth'⟩ := ih hns.2 hrest
    exact ⟨hstraight.append (.cons_instr (by nofun) hstraight'), Nat.max_le.mpr ⟨hwidth, hwidth'⟩⟩

/-- Operands, if it is so of each of them. -/
lemma Operands.sited (h : p.Operands held level depth children ops)
    (hns : ∀ c ∈ children, ∀ {held level depth ops r},
      (p.eval held level depth c).Yields ops r → Sited ops c.callSites c.callShape) :
    Sited ops (Node.callSitesOf children) (Node.callShapes children) := by
  cases h with
  | none => exact ⟨.nil, Nat.zero_le _⟩
  | one ha =>
    obtain ⟨hstraight, hwidth⟩ := hns _ (by simp) ha
    exact ⟨by simpa [Node.callSitesOf] using hstraight, Nat.max_le.mpr ⟨hwidth, Nat.zero_le _⟩⟩
  | two ha hb =>
    obtain ⟨hstraight, hwidth⟩ := hns _ (by simp) ha
    obtain ⟨hstraight', hwidth'⟩ := hns _ (by simp) hb
    exact ⟨by simpa [Node.callSitesOf] using hstraight.append hstraight',
      Nat.max_le.mpr ⟨hwidth, Nat.max_le.mpr ⟨hwidth', Nat.zero_le _⟩⟩⟩

/-- Code without calls behind other code. -/
lemma Sited.append {own : List Op} {sites : List CallSite} {shape : CallShape}
    (h : Sited ops sites shape) (hown : Straight own []) : Sited (ops ++ own) sites shape :=
  ⟨by simpa using h.straight.append hown, h.width_le⟩

/-- The code of a well-typed tree makes the calls of the tree. -/
theorem sited_of_eval {n : Node} (hn : n.WellTyped s)
    (h : (p.eval held level depth n).Yields ops r) : Sited ops n.callSites n.callShape := by
  induction hn generalizing held level depth ops r with
  | @node op type imm children accepts _ _ _ _ ih =>
    obtain ⟨-, -, hkind⟩ := evaluated_of_eval h
    by_cases hop : op = .call
    · subst hop
      cases hkind with
      | call _ hbegun hoperands =>
        obtain ⟨hstraight, hwidth⟩ :=
          sited_of_evalArguments (fun c hc {_ _ _ _ _} h => ih c hc h) hoperands
        refine ⟨?_, ?_⟩
        · rw [Node.callSites, if_pos rfl]
          exact hstraight.append (Machine.straight_callOps _ _)
        · rw [Node.callShape, if_pos rfl]
          exact Nat.max_le.mpr ⟨hwidth, by simpa using hbegun.length_le⟩
      | _ => simp_all [Opcode.vectorOp?, IntOp.ofOpcode?]
    · obtain ⟨before, own, hoperands, hown, rfl⟩ := hkind.operands hop accepts
      rw [Node.callSites, Node.callShape, if_neg hop, if_neg hop, List.append_nil]
      exact (hoperands.sited fun c hc {_ _ _ _ _} h => ih c hc h).append hown

end Plan

end TreeCode
