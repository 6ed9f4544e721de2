import Mathlib.Tactic.Common
import TreeCode.Proofs.Preservation
import TreeCode.Proofs.Refusals

/-!
# When registers do not suffice

A value is left in the register of its bank at the depth of its node, and lanes that are worked on
one after the other take registers of the bank of a lane.  `Method.Needs` says which registers the
trees of a method need, by the depths of their nodes alone.  Lowering ends for want of a register
only if one of these is not there, and it does not end well then (`Method.pressure_of_assemble`).
-/

namespace TreeCode

variable {m : Method} {cpu : Cpu} {fallback : VectorFallback} {n : Node} {op : Opcode}
  {type : DataType} {imm : Immediate} {children : List Node} {held : List Reg}
  {level depth index : Nat} {bank : Bank}

/-! ## Depths -/

/-- The operands of a node at a depth, each with its own: the arguments of a call are at the depth
of the call, and a second operand of another node is one further than the first one. -/
def Node.seats (n : Node) (depth : Nat) : List (Node × Nat) :=
  if n.op = .call then n.children.map fun c => (c, depth)
  else n.children.zip [depth, depth + 1]

/-- The node stands at a depth in a tree of the method. -/
inductive Method.Stands (m : Method) : Node → Nat → Prop where
  | root {b : Block} {n : Node} (hb : b ∈ m.blocks) (hn : n ∈ b.trees) : Stands m n 0
  | operand {n c : Node} {depth depth' : Nat} (h : Stands m n depth)
      (hc : (c, depth') ∈ n.seats depth) : Stands m c depth'

/-- A node at a depth needs the register at an index, apart from what its operands need: for its
value, or for the integer lanes of its operands if they are worked on one after the other. -/
inductive Node.Needs (cpu : Cpu) (fallback : VectorFallback) : Node → Nat → Bank → Nat → Prop where
  | value {n : Node} {depth : Nat} (h : n.producesValue) :
      Needs cpu fallback n depth (Bank.ofType n.type) depth
  | lane {op : Opcode} {l : Lane} {imm : Immediate} {children : List Node} {vop : VectorOp}
      {depth index : Nat} (hop : op.vectorOp? = some vop) (hlane : l.isFloat = false)
      (hlacks : cpu.supports vop l = false) (hfallback : fallback = .scalarize)
      (hindex : index = depth ∨ index = depth + 1) :
      Needs cpu fallback (.node op (.vector l) imm children) depth .general index

/-- Some node of the method needs the register. -/
def Method.Needs (m : Method) (cpu : Cpu) (fallback : VectorFallback) (bank : Bank) (index : Nat) :
    Prop := ∃ n depth, m.Stands n depth ∧ n.Needs cpu fallback depth bank index

/-- There are registers for everything that a tree at a depth needs. -/
inductive Node.Fits (cpu : Cpu) (fallback : VectorFallback) : Node → Nat → Prop where
  | node {n : Node} {depth : Nat}
      (own : ∀ bank index, n.Needs cpu fallback depth bank index → index < cpu.isa.pool bank)
      (operands : ∀ o ∈ n.seats depth, Fits cpu fallback o.1 o.2) : Fits cpu fallback n depth

lemma Node.Fits.own (h : n.Fits cpu fallback depth)
    (hneeds : n.Needs cpu fallback depth bank index) :
    index < cpu.isa.pool bank := by
  cases h with
  | node own _ => exact own _ _ hneeds

/-- If there are registers for all trees of a method, there are for every node in them. -/
lemma Method.Stands.fits (h : m.Stands n depth)
    (hfits : ∀ b ∈ m.blocks, ∀ n ∈ b.trees, n.Fits cpu fallback 0) : n.Fits cpu fallback depth := by
  induction h with
  | root hb hn => exact hfits _ hb _ hn
  | operand _ hc ih =>
    cases ih with
    | node _ operands => exact operands _ hc

/-- A value needs the register at the depth of its node. -/
lemma Method.Stands.needs (h : m.Stands n depth) (hvalue : n.producesValue)
    (htype : n.type = type) :
    m.Needs cpu fallback (Bank.ofType type) depth := by
  subst htype
  exact ⟨n, depth, h, .value hvalue⟩

/-- Registers for a node that works on no lanes. -/
lemma Node.Fits.of_no_lanes (hlanes : op.vectorOp? = none ∨ type.lane? = none)
    (hvalue : (Node.node op type imm children).producesValue →
      depth < cpu.isa.pool (Bank.ofType type))
    (hoperands : ∀ o ∈ (Node.node op type imm children).seats depth, o.1.Fits cpu fallback o.2) :
    (Node.node op type imm children).Fits cpu fallback depth := by
  refine .node (fun bank index hneeds => ?_) hoperands
  cases hneeds with
  | value h => exact hvalue h
  | lane hop =>
    rcases hlanes with hnone | hnone
    · rw [hnone] at hop
      cases hop
    · cases hnone

/-! ## Errors -/

/-- The error is for want of a register only if the method needs one that is not there. -/
def Method.Presses (m : Method) (cpu : Cpu) (fallback : VectorFallback) (e : CodeError) : Prop :=
  ∀ depth available, e = .registerPressure depth available → ∃ bank index,
    m.Needs cpu fallback bank index ∧ cpu.isa.pool bank ≤ index ∧ depth = index + 1 ∧
      available = cpu.isa.pool bank

namespace Plan

open Lowering hiding pure bind fail op instr

/-- Lowering for a method leads to a result, or ends because of a register if at all for want of
one. -/
abbrev Tries (m : Method) (cpu : Cpu) (fallback : VectorFallback) {α : Type} (x : Lowering α)
    (Q : α → Prop) : Prop := x.Meets (fun _ => True) Q (m.Presses cpu fallback)

lemma tries_instr {i : Instr} : Tries m cpu fallback (.instr i) fun _ => True := meets_instr trivial

lemma tries_unsupported {α : Type} {Q : α → Prop} {o : Obstacle} :
    Tries m cpu fallback (unsupported op type o) Q :=
  meets_fail fun _ _ h => by cases h

lemma tries_register (h : m.Needs cpu fallback (Bank.ofType type) index) :
    Tries m cpu fallback ((m.plan cpu fallback).register type index)
      fun _ => index < cpu.isa.pool (Bank.ofType type) := by
  unfold register
  by_cases hindex : index < (m.plan cpu fallback).cpu.isa.pool (Bank.ofType type)
  · simp only [if_pos hindex]
    exact meets_pure hindex
  · simp only [if_neg hindex]
    refine meets_fail fun depth available he => ?_
    obtain ⟨rfl, rfl⟩ := CodeError.registerPressure.inj he
    exact ⟨_, index, h, Nat.le_of_not_lt hindex, rfl, rfl⟩

/-! ## Vectors -/

lemma tries_lane {vop : VectorOp} {l : Lane} {lhs rhs : Reg} {offset : Nat} :
    Tries m cpu fallback ((m.plan cpu fallback).lane vop l lhs rhs offset) fun _ => True := by
  unfold lane
  refine tries_instr.bind fun _ _ => tries_instr.bind fun _ _ => ?_
  split
  · exact tries_instr.bind fun _ _ => tries_instr
  · split
    · exact tries_instr.bind fun _ _ => tries_instr
    · exact (meets_fail (Q := fun _ => True) fun _ _ h => by cases h).bind fun _ _ => tries_instr

lemma tries_scalarize {vop : VectorOp} {l : Lane}
    (hneeds : ∀ index, index = depth ∨ index = depth + 1 →
      m.Needs cpu fallback (Bank.ofType (.ofLane l)) index) :
    Tries m cpu fallback ((m.plan cpu fallback).scalarize vop l depth)
      fun _ => depth + 1 < cpu.isa.pool (Bank.ofType (.ofLane l)) := by
  have hcount : Tries m cpu fallback .countScalarized fun _ => True :=
    meets_of_ok rfl (fun _ _ => trivial) trivial
  unfold scalarize
  refine hcount.bind fun _ _ => tries_instr.bind fun _ _ => tries_instr.bind fun _ _ => ?_
  refine (tries_register (hneeds _ (.inl rfl))).bind fun lhs _ =>
    (tries_register (hneeds _ (.inr rfl))).bind fun rhs hnext => ?_
  exact (meets_forM fun _ _ => tries_lane).bind fun _ _ =>
    tries_instr.weaken fun _ _ => hnext

lemma tries_combineVectors {vop : VectorOp} {l : Lane} {rhs : Nat}
    (hneeds : cpu.supports vop l = false → ∀ index, index = depth ∨ index = depth + 1 →
      m.Needs cpu fallback (Bank.ofType (.ofLane l)) index) :
    Tries m cpu fallback ((m.plan cpu fallback).combineVectors vop l depth rhs)
      fun _ => cpu.supports vop l = false → depth + 1 < cpu.isa.pool (Bank.ofType (.ofLane l)) := by
  unfold combineVectors
  by_cases hsupports : (m.plan cpu fallback).cpu.supports vop l = true
  · rw [if_pos hsupports]
    refine tries_instr.weaken fun _ _ hlacks => ?_
    rw [show cpu.supports vop l = true from hsupports] at hlacks
    cases hlacks
  · rw [if_neg hsupports]
    have hlacks : cpu.supports vop l = false := Bool.eq_false_iff.mpr hsupports
    exact (tries_scalarize (hneeds hlacks)).weaken fun _ hnext _ => hnext

lemma tries_checkVector {vop : VectorOp} {l : Lane} :
    Tries m cpu fallback ((m.plan cpu fallback).checkVector vop l)
      fun _ => cpu.supports vop l = false → fallback = .scalarize := by
  rw [checkVector_eq]
  refine (meets_ensure fun _ _ _ h => by cases h).weaken fun _ hok hlacks => ?_
  simpa [Method.plan, hlacks] using hok

/-! ## Trees -/

/-- Wherever the tree stands in the method, evaluating it there leads to a result only if there are
registers for all of it. -/
def Tried (m : Method) (cpu : Cpu) (fallback : VectorFallback) (n : Node) : Prop :=
  ∀ held level depth, m.Stands n depth →
    Tries m cpu fallback ((m.plan cpu fallback).eval held level depth n)
      fun _ => n.Fits cpu fallback depth

section Operands

variable (hn : m.Stands (.node op type imm children) depth)
  (htried : ∀ c ∈ children, Tried m cpu fallback c)

include hn htried

lemma tries_evalFirst {t : DataType} (hop : op ≠ .call) (htypes : children.map Node.type = [t]) :
    Tries m cpu fallback ((m.plan cpu fallback).evalFirst held level depth children)
      fun _ => ∀ o ∈ (Node.node op type imm children).seats depth, o.1.Fits cpu fallback o.2 := by
  obtain ⟨a, rfl, -⟩ := map_type_eq_singleton_iff.mp htypes
  have hseats : (Node.node op type imm [a]).seats depth = [(a, depth)] := if_neg hop
  rw [evalFirst, hseats]
  have hfirst : m.Stands a depth := .operand hn (by simp [hseats])
  refine (htried a (by simp) held level depth hfirst).weaken fun _ ha => ?_
  simpa using ha

lemma tries_evalPair {t u : DataType} (hop : op ≠ .call)
    (htypes : children.map Node.type = [t, u]) :
    Tries m cpu fallback ((m.plan cpu fallback).evalPair held level depth children)
      fun _ => ∀ o ∈ (Node.node op type imm children).seats depth, o.1.Fits cpu fallback o.2 := by
  obtain ⟨a, b, rfl, -, -⟩ := map_type_eq_pair_iff.mp htypes
  have hseats : (Node.node op type imm [a, b]).seats depth = [(a, depth), (b, depth + 1)] :=
    if_neg hop
  rw [evalPair, hseats]
  refine (htried a (by simp) held level depth (.operand hn (by simp [hseats]))).bind
    fun lhs ha => ?_
  refine (htried b (by simp) _ level _ (.operand hn (by simp [hseats]))).bind
    fun rhs hb => meets_pure ?_
  simpa using ⟨ha, hb⟩

lemma tries_evalArguments {j : Nat} {ns : List Node} (hop : op = .call)
    (hns : ∀ c ∈ ns, c ∈ children) :
    Tries m cpu fallback ((m.plan cpu fallback).evalArguments held level depth j ns)
      fun _ => ∀ c ∈ ns, c.Fits cpu fallback depth := by
  have hseats : (Node.node op type imm children).seats depth =
    children.map fun c => (c, depth) := if_pos hop
  induction ns generalizing j with
  | nil =>
    rw [evalArguments]
    exact meets_pure nofun
  | cons c ns ih =>
    rw [List.forall_mem_cons] at hns
    have hstands : m.Stands c depth := .operand hn (by simpa [hseats] using hns.1)
    rw [evalArguments]
    refine (htried c hns.1 held (level + 1) depth hstands).bind fun _ hc => ?_
    exact tries_instr.bind fun _ _ => (ih hns.2).weaken fun _ hrest =>
      List.forall_mem_cons.mpr ⟨hc, hrest⟩

end Operands

lemma tries_beginCall {types : List DataType}
    (hneeds : type ≠ .noType → m.Needs cpu fallback (Bank.ofType type) depth) :
    Tries m cpu fallback ((m.plan cpu fallback).beginCall type imm types depth)
      fun _ => type ≠ .noType → depth < cpu.isa.pool (Bank.ofType type) := by
  unfold beginCall
  split
  · split
    · exact tries_unsupported
    · by_cases htype : type = .noType
      · simp only [if_pos htype]
        exact (meets_pure (Q := fun _ => True) trivial).bind fun _ _ =>
          meets_pure fun h => absurd htype h
      · simp only [if_neg htype]
        have hregister : Tries m cpu fallback (some <$> (m.plan cpu fallback).register type depth)
            fun _ => depth < cpu.isa.pool (Bank.ofType type) :=
          (tries_register (hneeds htype)).map fun _ h => h
        exact hregister.bind fun _ hdepth => meets_pure fun _ => hdepth
  · exact tries_unsupported

lemma tries_endCall {c : PendingCall} :
    Tries m cpu fallback ((m.plan cpu fallback).endCall held level c) fun _ => True := by
  unfold endCall save restore
  refine (meets_forM fun _ _ => tries_instr).bind fun _ _ =>
    (meets_forM fun _ _ => tries_instr).bind fun _ _ => (meets_op trivial).bind fun _ _ => ?_
  split
  · exact tries_instr.bind fun _ _ => (meets_forM fun _ _ => tries_instr).bind fun _ _ =>
      meets_pure trivial
  · exact (meets_forM fun _ _ => tries_instr).bind fun _ _ => meets_pure trivial

/-- A call, and what is done with its result. -/
lemma tries_call {α : Type} {f : Option Reg → Lowering α}
    (hn : m.Stands (.node .call type imm children) depth)
    (htried : ∀ c ∈ children, Tried m cpu fallback c)
    (hf : ∀ r, Tries m cpu fallback (f r) fun _ => True) :
    Tries m cpu fallback (do
      let c ← (m.plan cpu fallback).beginCall type imm (children.map Node.type) depth
      (m.plan cpu fallback).evalArguments held level depth 0 children
      let r ← (m.plan cpu fallback).endCall held level c
      f r) fun _ => (Node.node .call type imm children).Fits cpu fallback depth := by
  have hvalue : (Node.node .call type imm children).producesValue ↔ type ≠ .noType := by
    simp [Node.producesValue, Node.op, Node.type]
  refine (tries_beginCall fun htype => ⟨_, depth, hn, .value (hvalue.mpr htype)⟩).bind
    fun c hdepth => ?_
  refine (tries_evalArguments hn htried rfl fun _ hc => hc).bind fun _ harguments => ?_
  refine tries_endCall.bind fun r _ => (hf r).weaken fun _ _ => ?_
  refine .of_no_lanes (.inl rfl) (fun h => hdepth (hvalue.mp h)) ?_
  simpa [Node.seats, Node.op, Node.children] using harguments

lemma tries_rotateLeft {wide : Bool} {dst count : Nat} :
    Tries m cpu fallback ((m.plan cpu fallback).rotateLeft wide dst count) fun _ => True := by
  unfold rotateLeft
  split
  · exact tries_instr
  · exact tries_instr.bind fun _ _ => tries_instr

lemma tries_constant {dst : Nat} : Tries m cpu fallback (constant type dst imm) fun _ => True := by
  unfold constant
  split
  · exact tries_instr
  · split
    · exact tries_instr
    · exact tries_instr
  · exact tries_unsupported

/-- The lanes that are worked on one after the other.  Those of floating point numbers take the
registers that the vectors are in. -/
lemma needs_lane {l : Lane} {vop : VectorOp}
    (hn : m.Stands (.node op (.vector l) imm children) depth)
    (htypes : children.map Node.type = [.vector l, .vector l])
    (hvalues : ∀ c ∈ children, c.producesValue) (hop : op ≠ .call)
    (hvop : op.vectorOp? = some vop) (hlacks : cpu.supports vop l = false)
    (hfallback : fallback = .scalarize) (hindex : index = depth ∨ index = depth + 1) :
    m.Needs cpu fallback (Bank.ofType (.ofLane l)) index := by
  cases hlane : l.isFloat with
  | false =>
    have hbank : Bank.ofType (.ofLane l) = .general := by cases l <;> first | rfl | cases hlane
    rw [hbank]
    exact ⟨_, depth, hn, .lane hvop hlane hlacks hfallback hindex⟩
  | true =>
    have hbank : Bank.ofType (.ofLane l) = Bank.ofType (.vector l) := by
      cases l <;> first | rfl | cases hlane
    obtain ⟨a, b, rfl, ha, hb⟩ := map_type_eq_pair_iff.mp htypes
    have hseats :
        (Node.node op (.vector l) imm [a, b]).seats depth = [(a, depth), (b, depth + 1)] :=
      if_neg hop
    have hfirst : m.Stands a depth := .operand hn (by simp [hseats])
    have hsecond : m.Stands b (depth + 1) := .operand hn (by simp [hseats])
    rw [hbank]
    rcases hindex with rfl | rfl
    · exact hfirst.needs (hvalues a (by simp)) ha
    · exact hsecond.needs (hvalues b (by simp)) hb

/-- A lane-wise operation. -/
lemma tries_vector {l : Lane} {vop : VectorOp}
    (hn : m.Stands (.node op (.vector l) imm children) depth)
    (htried : ∀ c ∈ children, Tried m cpu fallback c)
    (htypes : children.map Node.type = [.vector l, .vector l])
    (hvalues : ∀ c ∈ children, c.producesValue) (hop : op ≠ .call)
    (hvop : op.vectorOp? = some vop) (hdepth : depth < cpu.isa.pool .vector) :
    Tries m cpu fallback (do
      (m.plan cpu fallback).checkVector vop l
      let ab ← (m.plan cpu fallback).evalPair held level depth children
      (m.plan cpu fallback).combineVectors vop l depth ab.2.index)
      fun _ => (Node.node op (.vector l) imm children).Fits cpu fallback depth := by
  refine tries_checkVector.bind fun _ hfallback => ?_
  refine (tries_evalPair hn htried hop htypes).bind fun r hoperands => ?_
  have hlanes (hlacks : cpu.supports vop l = false) (index : Nat)
      (hindex : index = depth ∨ index = depth + 1) :
      m.Needs cpu fallback (Bank.ofType (.ofLane l)) index :=
    needs_lane hn htypes hvalues hop hvop hlacks (hfallback hlacks) hindex
  refine (tries_combineVectors hlanes).weaken fun _ hnext =>
    .node (fun bank index hneeds => ?_) hoperands
  cases hneeds with
  | value => exact hdepth
  | lane hvop' hlane hlacks _ hindex =>
    obtain rfl := Option.some.inj (hvop.symm.trans hvop')
    have hbank : Bank.ofType (.ofLane l) = .general := by cases l <;> first | rfl | cases hlane
    have hlt := hnext hlacks
    rw [hbank] at hlt
    omega

lemma tried_of_ne_call (hop : op ≠ .call)
    (haccepts : op.Accepts type (children.map Node.type))
    (hvalues : ∀ c ∈ children, c.producesValue)
    (hvalue : (Node.node op type imm children).producesValue)
    (htried : ∀ c ∈ children, Tried m cpu fallback c) :
    Tried m cpu fallback (.node op type imm children) := by
  intro held level depth hn
  obtain ⟨own, hown, heval⟩ :=
    (m.plan cpu fallback).exists_own held level depth type imm children hop
  rw [heval]
  refine (tries_register (hn.needs hvalue rfl)).bind fun _ hdepth => ?_
  suffices htries : Tries m cpu fallback own
      fun _ => (Node.node op type imm children).Fits cpu fallback depth from
    htries.bind fun _ hwhole => meets_pure hwhole
  -- what is left to show once the operands are evaluated
  have hwhole (hlanes : op.vectorOp? = none ∨ type.lane? = none)
      (hoperands : ∀ o ∈ (Node.node op type imm children).seats depth, o.1.Fits cpu fallback o.2) :
      (Node.node op type imm children).Fits cpu fallback depth :=
    .of_no_lanes hlanes (fun _ => hdepth) hoperands
  have hnone (hchildren : children = []) :
      ∀ o ∈ (Node.node op type imm children).seats depth, o.1.Fits cpu fallback o.2 := by
    simp [hchildren, Node.seats, Node.children]
  cases hown with
  | load hop' =>
    subst hop'
    exact tries_instr.weaken fun _ _ => hwhole (.inl rfl) (hnone (by simpa using haccepts.2))
  | const hop' =>
    subst hop'
    exact tries_constant.weaken fun _ _ => hwhole (.inl rfl) (hnone (by simpa using haccepts.2))
  | loadIndirect hop' | neg hop' | sqrt hop' =>
    subst hop'
    refine (tries_evalFirst hn htried hop haccepts.2).bind fun _ hoperands => ?_
    exact tries_instr.weaken fun _ _ => hwhole (.inl rfl) hoperands
  | rol hop' =>
    subst hop'
    refine (tries_evalPair hn htried hop haccepts.2).bind fun _ hoperands => ?_
    exact tries_rotateLeft.weaken fun _ _ => hwhole (.inl rfl) hoperands
  | vector htype hvop =>
    subst htype
    exact tries_vector hn htried (haccepts.of_vectorOp? hvop) hvalues hop hvop hdepth
  | floating hfloating hvop =>
    refine (tries_evalPair hn htried hop (haccepts.of_vectorOp? hvop)).bind fun _ hoperands => ?_
    exact tries_instr.weaken fun _ _ => hwhole (.inr (DataType.lane?_of_isFloating hfloating)) hoperands
  | integer hiop hscalar =>
    have hlanes : op.vectorOp? = none ∨ type.lane? = none := by
      cases hvop : op.vectorOp? with
      | none => exact .inl rfl
      | some vop => exact .inr (hscalar (by rw [hvop]; rfl)).1
    obtain ⟨-, right, htypes, -⟩ := haccepts.of_ofOpcode? hiop hscalar
    refine (tries_evalPair hn htried hop htypes).bind fun _ hoperands => ?_
    exact tries_instr.weaken fun _ _ => hwhole hlanes hoperands
  | noParameter | noValue => exact tries_unsupported

/-- Evaluating a well-typed tree leads to a result only if there are registers for all of it, and
ends for want of a register only if the method needs it. -/
theorem tried_of_wellTyped {s : Scope} (hn : n.WellTyped s) (hvalue : n.producesValue) :
    Tried m cpu fallback n := by
  induction hn with
  | @node op type imm children accepts _ _ values operands ih =>
    have htried : ∀ c ∈ children, Tried m cpu fallback c := fun c hc => ih c hc (values c hc)
    by_cases hop : op = .call
    · subst hop
      intro held level depth hn
      rw [eval, if_pos rfl]
      refine tries_call hn htried fun r => ?_
      cases r with
      | none => exact tries_unsupported
      | some r => exact meets_pure trivial
    · exact tried_of_ne_call hop accepts values hvalue htried

/-! ## Methods -/

lemma tries_target : Tries m cpu fallback ((m.plan cpu fallback).target op type imm)
    fun _ => True := by
  unfold target
  split
  · split
    · exact meets_pure trivial
    · exact tries_unsupported
  · exact tries_unsupported

lemma tries_treetop {s : Scope} {last : Bool} (hn : n.WellTyped s) (hstands : m.Stands n 0) :
    Tries m cpu fallback ((m.plan cpu fallback).treetop last n)
      fun _ => n.Fits cpu fallback 0 := by
  have hwhole := hn
  cases hn with
  | @node op type imm children accepts fits _ values operands =>
    have htried : ∀ c ∈ children, Tried m cpu fallback c :=
      fun c hc => tried_of_wellTyped (operands c hc) (values c hc)
    -- what has no value needs no register of its own
    have hnone (hvalue : (Node.node op type imm children).producesValue = false)
        (hlanes : op.vectorOp? = none)
        (hoperands : ∀ o ∈ (Node.node op type imm children).seats 0, o.1.Fits cpu fallback o.2) :
        (Node.node op type imm children).Fits cpu fallback 0 :=
      .of_no_lanes (.inl hlanes) (fun h => by simp [hvalue] at h) hoperands
    unfold treetop
    simp only [Node.op, Node.type, Node.imm, Node.children]
    split
    case h_1 =>
      refine (tries_evalPair hstands htried (by simp) accepts.2).bind fun _ hoperands => ?_
      exact tries_instr.weaken fun _ _ => hnone rfl rfl hoperands
    case h_2 =>
      have hjump : Tries m cpu fallback (if (!last) = true then
          .op (.transfer (.jump (m.plan cpu fallback).epilogue)) else Pure.pure PUnit.unit)
          fun _ => True := by
        cases last with
        | true => exact meets_pure trivial
        | false => exact meets_op trivial
      rcases accepts with ⟨-, hempty⟩ | ⟨-, htypes⟩
      · obtain rfl : children = [] := by simpa using hempty
        exact hjump.weaken fun _ _ => hnone rfl rfl (by simp [Node.seats, Node.children])
      · have hvalue : Tries m cpu fallback ((m.plan cpu fallback).evalFirst [] 0 0 children) _ :=
          tries_evalFirst hstands htried (by simp) htypes
        obtain ⟨a, rfl, -⟩ := map_type_eq_singleton_iff.mp htypes
        refine hvalue.bind fun _ hoperands => tries_instr.bind fun _ _ => ?_
        exact hjump.weaken fun _ _ => hnone rfl rfl hoperands
    case h_3 =>
      obtain rfl : children = [] := by simpa using accepts.2
      refine tries_target.bind fun _ _ => ?_
      exact meets_op trivial |>.weaken fun _ _ =>
        hnone rfl rfl (by simp [Node.seats, Node.children])
    case h_4 c =>
      refine (tries_evalPair hstands htried (by simp) accepts.2).bind fun _ hoperands => ?_
      refine tries_instr.bind fun _ _ => tries_target.bind fun _ _ => ?_
      exact (meets_op trivial).weaken fun _ _ => hnone rfl rfl hoperands
    case h_5 =>
      exact tries_call hstands htried fun _ => meets_pure trivial
    case h_6 hstore hret hgoto hifcmp hcall =>
      have hvalue : (Node.node op type imm children).producesValue :=
        accepts.producesValue hstore hret hgoto hifcmp hcall
      exact (tried_of_wellTyped hwhole hvalue [] 0 0 hstands).bind fun _ h => meets_pure h

lemma tries_trees {s : Scope} {final : Bool} {b : Block} {ns : List Node} (hb : b ∈ m.blocks)
    (hns : ∀ n ∈ ns, n ∈ b.trees) (htyped : ∀ n ∈ ns, n.WellTyped s) :
    Tries m cpu fallback ((m.plan cpu fallback).trees final ns)
      fun _ => ∀ n ∈ ns, n.Fits cpu fallback 0 := by
  induction ns with
  | nil => exact meets_pure nofun
  | cons n ns ih =>
    rw [List.forall_mem_cons] at hns htyped
    refine (tries_treetop htyped.1 (.root hb hns.1)).bind fun _ hn => ?_
    exact (ih hns.2 htyped.2).weaken fun _ hrest => List.forall_mem_cons.mpr ⟨hn, hrest⟩

lemma tries_blocksFrom {s : Scope} {first : Nat} {bs : List Block} (hbs : ∀ b ∈ bs, b ∈ m.blocks)
    (htyped : ∀ b ∈ bs, ∀ n ∈ b.trees, n.WellTyped s) :
    Tries m cpu fallback ((m.plan cpu fallback).blocksFrom first bs)
      fun _ => ∀ b ∈ bs, ∀ n ∈ b.trees, n.Fits cpu fallback 0 := by
  induction bs generalizing first with
  | nil => exact meets_pure nofun
  | cons b bs ih =>
    rw [List.forall_mem_cons] at hbs htyped
    refine (meets_op trivial).bind fun _ _ => ?_
    refine (tries_trees hbs.1 (fun _ hn => hn) htyped.1).bind fun _ hb => ?_
    exact (ih hbs.2 htyped.2).weaken fun _ hrest => List.forall_mem_cons.mpr ⟨hb, hrest⟩

end Plan

namespace Method

open Lowering hiding pure bind fail op instr

variable {text : String} {base : UInt64} {options : Options}

/-- Lowering of a method that is read. -/
lemma tries_lower {e : Source.Expr} (h : ofExpr e = .ok m) :
    Plan.Tries m cpu fallback (m.lower cpu fallback)
      fun _ => ∀ b ∈ m.blocks, ∀ n ∈ b.trees, n.Fits cpu fallback 0 := by
  cases hassign : cpu.isa.convention.assignAll m.params with
  | none =>
    simp only [lower, hassign]
    exact meets_fail fun _ _ h => by cases h
  | some arguments =>
    have hparams := Isa.length_le_of_assignAll hassign
    have htyped := (wellTyped_of_ofExpr h (by omega)).1.trees_typed
    rw [lower_eq hassign]
    refine Plan.tries_instr.bind fun _ _ => ?_
    refine Meets.bind (Q := fun _ => True) (meets_forM fun _ _ => Plan.tries_instr) fun _ _ => ?_
    refine (Plan.tries_blocksFrom (fun _ hb => hb) htyped).bind fun _ hfits => ?_
    exact (meets_op trivial).bind fun _ _ => Plan.tries_instr.weaken fun _ _ => hfits

lemma needs_of_assemble {e : Source.Expr} (h : ofExpr e = .ok m) {available : Nat}
    (hassemble : m.assemble cpu base options = .error (.registerPressure depth available)) :
    ∃ bank index, m.Needs cpu options.fallback bank index ∧ cpu.isa.pool bank ≤ index ∧
      depth = index + 1 ∧ available = cpu.isa.pool bank := by
  rcases lower_of_assemble_eq_error hassemble trivial with hresult | ⟨-, _, -, -, he⟩
  · exact (tries_lower h).error _ hresult _ _ rfl
  · cases he

lemma lt_pool_of_assemble {e : Source.Expr} (h : ofExpr e = .ok m) {code : MachineCode}
    (hassemble : m.assemble cpu base options = .ok code)
    (hneeds : m.Needs cpu options.fallback bank index) : index < cpu.isa.pool bank := by
  obtain ⟨-, hlower⟩ := lower_of_assemble hassemble
  obtain ⟨n, depth, hstands, hn⟩ := hneeds
  exact (hstands.fits ((tries_lower h).result () hlower.2)).own hn

/-- **Registers do not suffice exactly where a pool is exceeded.**  If there is a register for
everything that the trees of a method need by the depths of their nodes, assembling the method does
not end for want of one, wherever the code will stand.  If there is none for something, the method
is not assembled.  And when assembling ends for want of a register, then there is none for something
that the method needs, and the error names the size of its pool and the depth behind that of the
register. -/
theorem pressure_of_assemble (h : parse text = .ok m) (cpu : Cpu) (options : Options) :
    ((∀ bank index, m.Needs cpu options.fallback bank index → index < cpu.isa.pool bank) →
      ∀ base depth available,
        m.assemble cpu base options ≠ .error (.registerPressure depth available)) ∧
    (∀ bank index, m.Needs cpu options.fallback bank index → cpu.isa.pool bank ≤ index →
      ∀ base code, m.assemble cpu base options ≠ .ok code) ∧
    ∀ base depth available,
      m.assemble cpu base options = .error (.registerPressure depth available) →
        ∃ bank index, m.Needs cpu options.fallback bank index ∧ cpu.isa.pool bank ≤ index ∧
          depth = index + 1 ∧ available = cpu.isa.pool bank := by
  obtain ⟨e, -, hm⟩ := Except.bind_eq_ok_iff.mp h
  refine ⟨fun hpool base depth available hassemble => ?_,
    fun bank index hneeds hpool base code hassemble => ?_,
    fun base depth available => needs_of_assemble hm⟩
  · obtain ⟨bank, index, hneeds, hle, -⟩ := needs_of_assemble hm hassemble
    exact Nat.not_lt.mpr hle (hpool bank index hneeds)
  · exact Nat.not_lt.mpr hpool (lt_pool_of_assemble hm hassemble hneeds)

end Method

/-! ## A sum that needs too many registers -/

/-- A sum of ones whose second operand is a sum again, so many times. -/
def Node.leaning : Nat → Node
  | 0 => .node .const .int32 (.int 1) []
  | k + 1 => .node .add .int32 .none [.node .const .int32 (.int 1) [], leaning k]

namespace Method

/-- Each sum puts the innermost one a register further. -/
lemma Stands.leaning {k : Nat} (h : m.Stands (.leaning k) depth) :
    m.Stands (.leaning 0) (depth + k) := by
  induction k generalizing depth with
  | zero => exact h
  | succ k ih =>
    have hsecond : m.Stands (.leaning k) (depth + 1) :=
      .operand h (List.mem_cons_of_mem _ (List.mem_singleton_self _))
    have hlast := ih hsecond
    rwa [Nat.add_right_comm, Nat.add_assoc] at hlast

/-- Seven sums, one in the other. -/
def crowdedText : String :=
  "(method return=Int32 args=[] (block (ireturn " ++
    "(iadd (iconst 1) (iadd (iconst 1) (iadd (iconst 1) (iadd (iconst 1) " ++
    "(iadd (iconst 1) (iadd (iconst 1) (iadd (iconst 1) (iconst 1)))))))))))"

/-- The method of the text `crowdedText`. -/
def crowded : Method :=
  ⟨none, .int32, [], [⟨none, [.node .ret .int32 .none [.leaning 7]]⟩]⟩

set_option maxRecDepth 2000 in
lemma parse_crowdedText : parse crowdedText = .ok crowded := by
  cbv

lemma needs_crowded (cpu : Cpu) : crowded.Needs cpu .fail .general 7 := by
  have hroot : crowded.Stands (.node .ret .int32 .none [.leaning 7]) 0 :=
    .root (List.mem_singleton_self _) (List.mem_singleton_self _)
  have hsum : crowded.Stands (.leaning 7) 0 := .operand hroot (List.mem_singleton_self _)
  exact hsum.leaning.needs (by decide) rfl

/-- Seven sums in each other are not assembled for x86-64, which has seven registers for them; the
eighth one is missing. -/
theorem pressure_of_assemble_crowdedText :
    parse crowdedText = .ok crowded ∧ crowded.Needs (.baseline .x64) .fail .general 7 ∧
      Isa.x64.pool .general ≤ 7 ∧
      ∀ base code, crowded.assemble (.baseline .x64) base .default ≠ .ok code :=
  ⟨parse_crowdedText, needs_crowded _, by decide,
    (pressure_of_assemble parse_crowdedText (.baseline .x64) .default).2.1 .general 7
      (needs_crowded _) (by decide)⟩

end Method

end TreeCode
