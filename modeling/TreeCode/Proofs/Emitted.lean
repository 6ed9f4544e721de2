import Mathlib.Tactic.Common
import TreeCode.Proofs.Encodable
import TreeCode.Proofs.Parsing
import TreeCode.Proofs.Programs

/-!
# What lowering emits and why it ends

Lowering may end with an error, and the operations before the error count too: an error of the
assembler at one of them comes first.  So it is said of every run of lowering, whether it ends well
or not, which operations come out of it and which errors there can be.  For a well-typed method the
errors are those of registers and capabilities: no operand is missing, no branch is without a block,
no node is without code.
-/

namespace TreeCode

namespace Lowering

variable {α β : Type}

/-- All operations satisfy `P`, a result satisfies `Q` and an error satisfies `E`. -/
structure Meets (x : Lowering α) (P : Op → Prop) (Q : α → Prop) (E : CodeError → Prop) : Prop where
  ops : ∀ o ∈ x.ops, P o
  result : ∀ a, x.result = .ok a → Q a
  error : ∀ e, x.result = .error e → E e

variable {P : Op → Prop} {Q : α → Prop} {R : β → Prop} {E : CodeError → Prop}

lemma meets_of_ok {x : Lowering α} {a : α} (hresult : x.result = .ok a) (hops : ∀ o ∈ x.ops, P o)
    (ha : Q a) : x.Meets P Q E where
  ops := hops
  result b hb := by
    rw [hresult] at hb
    exact Except.ok.inj hb ▸ ha
  error e he := by
    rw [hresult] at he
    cases he

lemma meets_of_error {x : Lowering α} {e : CodeError} (hresult : x.result = .error e)
    (hops : ∀ o ∈ x.ops, P o) (he : E e) : x.Meets P Q E where
  ops := hops
  result a ha := by
    rw [hresult] at ha
    cases ha
  error e' he' := by
    rw [hresult] at he'
    exact Except.error.inj he' ▸ he

lemma meets_pure {a : α} (h : Q a) : (Pure.pure a : Lowering α).Meets P Q E :=
  meets_of_ok rfl (fun _ ho => absurd ho List.not_mem_nil) h

lemma meets_fail {e : CodeError} (h : E e) : (fail e : Lowering α).Meets P Q E :=
  meets_of_error rfl (fun _ ho => absurd ho List.not_mem_nil) h

/-- A condition that does not hold has to be a reason to end. -/
lemma meets_ensure {condition : Bool} {e : CodeError} (h : condition = false → E e) :
    (ensure condition e).Meets P (fun _ => condition = true) E := by
  cases condition with
  | false => exact meets_fail (h rfl)
  | true => exact meets_pure rfl

lemma meets_op {o : Op} (h : P o) : (op o).Meets P (fun _ => True) E :=
  meets_of_ok rfl (fun _ ho => List.mem_singleton.mp ho ▸ h) trivial

lemma meets_instr {i : Instr} (h : P (.instr i)) : (instr i).Meets P (fun _ => True) E :=
  meets_op h

lemma Meets.bind {x : Lowering α} {f : α → Lowering β} (hx : x.Meets P Q E)
    (hf : ∀ a, Q a → (f a).Meets P R E) : (x >>= f).Meets P R E := by
  obtain ⟨ops, n, result⟩ := x
  cases result with
  | error e => exact meets_of_error rfl hx.ops (hx.error e rfl)
  | ok a =>
    have hrest := hf a (hx.result a rfl)
    refine ⟨fun o ho => ?_, hrest.result, hrest.error⟩
    rcases List.mem_append.mp ho with ho | ho
    · exact hx.ops o ho
    · exact hrest.ops o ho

lemma Meets.weaken {x : Lowering α} {Q' : α → Prop} (hx : x.Meets P Q E) (h : ∀ a, Q a → Q' a) :
    x.Meets P Q' E := ⟨hx.ops, fun a ha => h a (hx.result a ha), hx.error⟩

lemma Meets.strengthen {x : Lowering α} {P' : Op → Prop} (hx : x.Meets P Q E)
    (h : ∀ o, P o → P' o) : x.Meets P' Q E := ⟨fun o ho => h o (hx.ops o ho), hx.result, hx.error⟩

lemma Meets.map {x : Lowering α} {f : α → β} (hx : x.Meets P Q E) (h : ∀ a, Q a → R (f a)) :
    (f <$> x).Meets P R E := hx.bind fun a ha => meets_pure (h a ha)

/-- The members of a list one after the other. -/
lemma meets_forM {l : List α} {f : α → Lowering Unit}
    (h : ∀ a ∈ l, (f a).Meets P (fun _ => True) E) : (l.forM f).Meets P (fun _ => True) E := by
  induction l with
  | nil => exact meets_pure trivial
  | cons a l ih =>
    rw [List.forall_mem_cons] at h
    exact h.1.bind fun _ _ => ih h.2

end Lowering

/-! ## Frames -/

/-- The parts of a frame begin at multiples of the size of what is in them. -/
structure Frame.Aligned (f : Frame) : Prop where
  spillBase : 16 ∣ f.spillBase
  stagingBase : 16 ∣ f.stagingBase
  stagingRow : 8 ∣ f.stagingRow
  scratchBase : 16 ∣ f.scratchBase

lemma dvd_align16 (n : Nat) : 16 ∣ align16 n := Nat.dvd_mul_left _ _

lemma Frame.aligned_plan (m : Method) (slots : Nat) : (plan m slots).Aligned where
  spillBase := dvd_align16 _
  stagingBase := by
    refine Nat.dvd_add (dvd_align16 _) ?_
    split
    · exact Nat.dvd_mul_left _ _
    · exact Nat.dvd_zero _
  stagingRow := Nat.dvd_mul_left _ _
  scratchBase := dvd_align16 _

namespace Method

variable {m : Method} {cpu : Cpu} {fallback : VectorFallback}

/-! ## Nodes, errors and operations of a method -/

/-- The node stands somewhere in a tree of the method. -/
inductive HasNode (m : Method) : Node → Prop where
  | root {b : Block} {n : Node} (hb : b ∈ m.blocks) (hn : n ∈ b.trees) : HasNode m n
  | child {op : Opcode} {type : DataType} {imm : Immediate} {children : List Node} {n : Node}
      (h : HasNode m (.node op type imm children)) (hn : n ∈ children) : HasNode m n

/-- Why lowering of a well-typed method ends: there are too many parameters, arguments or values for
the registers, or lanes cannot be worked on at a time and must not be taken apart. -/
inductive Stops (m : Method) (cpu : Cpu) (fallback : VectorFallback) : CodeError → Prop where
  | parameters (h : cpu.isa.convention.assignAll m.params = none) :
      Stops m cpu fallback (.unsupported "method" m.returnType (.parameters m.params))
  | arguments {type : DataType} {imm : Immediate} {children : List Node}
      (hn : m.HasNode (.node .call type imm children))
      (h : cpu.isa.convention.assignAll (children.map Node.type) = none) :
      Stops m cpu fallback
        (.unsupported (Opcode.call.mnemonic type) type (.arguments children.length))
  | lacking {op : Opcode} {l : Lane} {imm : Immediate} {children : List Node} {vop : VectorOp}
      {capability : Capability} (hn : m.HasNode (.node op (.vector l) imm children))
      (hop : op.vectorOp? = some vop) (hfallback : fallback = .fail)
      (hlacks : cpu.supports vop l = false) :
      Stops m cpu fallback (.unsupportedCapability vop.mnemonic (.vector l) capability)
  | pressure {depth available : Nat} : Stops m cpu fallback (.registerPressure depth available)

/-- The frame of the method is small enough for one adjustment of the stack pointer of AArch64. -/
def SmallFrame (m : Method) (cpu : Cpu) : Prop :=
  cpu.isa = .aarch64 → (Frame.plan m cpu.isa.deepest).size ≤ A64.maxFrame.toNat

/-- What lowering emits for the trees of a well-typed method: instructions that have an encoding,
and transfers to its labels or to the targets of its calls. -/
inductive Emits (m : Method) (cpu : Cpu) : Op → Prop where
  | prologue : Emits m cpu
      (.instr (.prologue (UInt32.ofNat (Frame.plan m cpu.isa.deepest).size)))
  | instr {i : Instr} (h : m.SmallFrame cpu → cpu.isa.Encodes i) : Emits m cpu (.instr i)
  | jump {label : Nat} (h : label ≤ m.blocks.length) : Emits m cpu (.transfer (.jump label))
  | branchIf {c : Condition} {label : Nat} (h : label ≤ m.blocks.length) :
      Emits m cpu (.transfer (.branchIf c label))
  | call {target : UInt64} {type : DataType} {children : List Node}
      (hn : m.HasNode (.node .call type (.address target) children)) :
      Emits m cpu (.transfer (.call target))

end Method

lemma Access.slot_bytes_dvd (type : DataType) : (slot type).bytes ∣ 8 := by
  unfold slot
  split <;> decide

namespace Plan

open Lowering hiding pure bind fail op instr
open Machine (Pending)

variable {m : Method} {cpu : Cpu} {fallback : VectorFallback} {held : List Reg}
  {level depth : Nat} {op : Opcode} {type : DataType} {imm : Immediate} {children : List Node}

/-- An offset into the frame that is aligned for the access can be held if the frame is small. -/
lemma holds_frameOffset {access : Access} {offset : Nat} (hsmall : m.SmallFrame cpu)
    (hle : (Frame.plan m cpu.isa.deepest).Fits m.params.length cpu.isa.deepest
      (Node.callShapes m.trees) (m.trees.any Node.hasVector) →
        offset ≤ (Frame.plan m cpu.isa.deepest).size)
    (hdvd : access.bytes ∣ offset) : cpu.isa.Holds access (frameOffset offset) := by
  intro hisa
  have hsize := hsmall hisa
  rw [show A64.maxFrame.toNat = 4095 from rfl] at hsize
  have hfits := Frame.fits_plan m cpu.isa.deepest (by omega)
  have := hle hfits
  exact A64.isSome_scaled? hdvd (by omega)

/-- Lowering for a method does what it may. -/
abbrev Permits (m : Method) (cpu : Cpu) (fallback : VectorFallback) {α : Type} (x : Lowering α)
    (Q : α → Prop) : Prop := x.Meets (m.Emits cpu) Q (m.Stops cpu fallback)

lemma permits_instr {i : Instr} (h : m.SmallFrame cpu → cpu.isa.Admits i) :
    Permits m cpu fallback (.instr i) fun _ => True :=
  meets_instr (.instr fun hsmall => (h hsmall).encodes)

lemma permits_register : Permits m cpu fallback ((m.plan cpu fallback).register type depth)
    fun r => r = slotOf type depth ∧ depth < cpu.isa.pool (Bank.ofType type) := by
  unfold register
  by_cases h : depth < (m.plan cpu fallback).cpu.isa.pool (Bank.ofType type)
  · simp only [if_pos h]
    exact meets_pure ⟨rfl, h⟩
  · simp only [if_neg h]
    exact meets_fail .pressure

/-! ## Calls -/

lemma permits_beginCall {target : UInt64}
    (hn : m.HasNode (.node .call type (.address target) children)) :
    Permits m cpu fallback
      ((m.plan cpu fallback).beginCall type (.address target) (children.map Node.type) depth)
      fun c => ∃ arguments, (m.plan cpu fallback).Begun type (.address target)
          (children.map Node.type) depth target arguments c.result ∧
        c = ⟨target, arguments.zip (children.map Node.type), c.result⟩ := by
  unfold beginCall
  have hcpu : (m.plan cpu fallback).cpu = cpu := rfl
  cases hassign : cpu.isa.convention.assignAll (children.map Node.type) with
  | none =>
    simp only [hcpu, hassign]
    refine meets_fail ?_
    rw [List.length_map]
    exact .arguments hn hassign
  | some arguments =>
    simp only [hcpu, hassign]
    by_cases htype : type = .noType
    · simp only [if_pos htype]
      refine (meets_pure (Q := fun r => r = none) rfl).bind fun r hr => meets_pure ?_
      exact ⟨arguments, ⟨rfl, hassign, by rw [hr, if_pos htype], fun h => absurd htype h⟩, rfl⟩
    · simp only [if_neg htype]
      refine (permits_register.map (R := fun r => r = some (slotOf type depth) ∧
        depth < cpu.isa.pool (Bank.ofType type)) fun r hr => ⟨by rw [hr.1], hr.2⟩).bind
          fun r hr => meets_pure ?_
      exact ⟨arguments, ⟨rfl, hassign, by rw [hr.1, if_neg htype], fun _ => hr.2⟩, rfl⟩

/-- The slots for values kept across a call. -/
lemma holds_spill {k : Nat} (bank : Bank) (hsmall : m.SmallFrame cpu)
    (hlevels : 0 < (Node.callShapes m.trees).levels) (hk : k < cpu.isa.deepest) :
    cpu.isa.Holds (.whole bank) (frameOffset ((Frame.plan m cpu.isa.deepest).spill k)) := by
  refine holds_frameOffset hsmall (fun hfits => ?_) ?_
  · have hspill := hfits.spill_le hlevels hk
    have hstaging := hfits.staging_le
    have hscratch := hfits.scratchBase_le
    omega
  · have haligned := Frame.aligned_plan m cpu.isa.deepest
    have h16 : 16 ∣ (Frame.plan m cpu.isa.deepest).spill k :=
      Nat.dvd_add haligned.spillBase (Nat.dvd_mul_left 16 k)
    refine Nat.dvd_trans ?_ h16
    cases bank <;> decide

/-- The slots for the arguments of a call. -/
lemma holds_staging {j : Nat} (hsmall : m.SmallFrame cpu)
    (hlevel : level < (Node.callShapes m.trees).levels)
    (hj : j ≤ (Node.callShapes m.trees).width) :
    cpu.isa.Holds (.slot type)
      (frameOffset ((Frame.plan m cpu.isa.deepest).staging level j)) := by
  refine holds_frameOffset hsmall (fun hfits => ?_) ?_
  · exact Nat.le_trans (hfits.staging_le_scratch hlevel hj) hfits.scratchBase_le
  · have haligned := Frame.aligned_plan m cpu.isa.deepest
    have h8 : 8 ∣ (Frame.plan m cpu.isa.deepest).staging level j :=
      Nat.dvd_add (Nat.dvd_add (Nat.dvd_trans (by decide) haligned.stagingBase)
        (Nat.dvd_trans haligned.stagingRow (Nat.dvd_mul_left _ _))) (Nat.dvd_mul_left 8 j)
    exact Nat.dvd_trans (Access.slot_bytes_dvd _) h8

/-- An argument, its type and its place. -/
lemma mem_of_mem_zipIdx {arguments : List Argument} {types : List DataType} {a : Argument}
    {j : Nat} (h : ((a, type), j) ∈ (arguments.zip types).zipIdx) :
    (a, type) ∈ arguments.zip types ∧ j < types.length := by
  obtain ⟨hj, hget⟩ := List.getElem?_eq_some_iff.mp (List.mk_mem_zipIdx_iff_getElem?.mp h)
  refine ⟨hget ▸ List.getElem_mem hj, ?_⟩
  simp only [List.length_zip] at hj
  omega

/-- What is waited for is saved in the frame and restored. -/
lemma permits_save_restore (hlevels : 0 < (Node.callShapes m.trees).levels)
    (hheld : held.length ≤ cpu.isa.deepest) (hpool : ∀ r ∈ held, r.index < cpu.isa.pool r.bank) :
    Permits m cpu fallback ((m.plan cpu fallback).save held) (fun _ => True) ∧
      Permits m cpu fallback ((m.plan cpu fallback).restore held) fun _ => True := by
  have hspills : ∀ r k, (r, k) ∈ held.zipIdx → r.index < cpu.isa.pool r.bank ∧
      k < cpu.isa.deepest := by
    intro r k hr
    obtain ⟨hk, rfl⟩ := List.getElem?_eq_some_iff.mp (List.mk_mem_zipIdx_iff_getElem?.mp hr)
    exact ⟨hpool _ (List.getElem_mem hk), by omega⟩
  constructor
  · refine meets_forM ?_
    rintro ⟨r, k⟩ hr
    obtain ⟨hr, hk⟩ := hspills r k hr
    exact permits_instr fun hsmall => .store (by cases r <;> rfl) hr (by simp)
      fun _ => holds_spill _ hsmall hlevels hk
  · refine meets_forM ?_
    rintro ⟨r, k⟩ hr
    obtain ⟨hr, hk⟩ := hspills r k hr
    exact permits_instr fun hsmall => .load (by cases r <;> rfl) hr (by simp)
      fun _ => holds_spill _ hsmall hlevels hk

lemma permits_endCall {target : UInt64} {arguments : List Argument} {result : Option Reg}
    (hn : m.HasNode (.node .call type (.address target) children))
    (hbegun : (m.plan cpu fallback).Begun type (.address target) (children.map Node.type) depth
      target arguments result)
    (hlevel : level < (Node.callShapes m.trees).levels)
    (hwidth : children.length ≤ (Node.callShapes m.trees).width)
    (hheld : held.length ≤ cpu.isa.deepest) (hpool : ∀ r ∈ held, r.index < cpu.isa.pool r.bank) :
    Permits m cpu fallback ((m.plan cpu fallback).endCall held level
        ⟨target, arguments.zip (children.map Node.type), result⟩) fun r => r = result := by
  have hlevels : 0 < (Node.callShapes m.trees).levels := by omega
  obtain ⟨hsave, hrestore⟩ : Permits m cpu fallback ((m.plan cpu fallback).save held) _ ∧
    Permits m cpu fallback ((m.plan cpu fallback).restore held) _ :=
      permits_save_restore hlevels hheld hpool
  unfold endCall
  refine hsave.bind fun _ _ => Meets.bind (Q := fun _ => True) (meets_forM ?_) fun _ _ =>
    (meets_op (.call hn)).bind fun _ _ => ?_
  · rintro ⟨⟨a, t⟩, j⟩ ha
    obtain ⟨hmem, hj⟩ := mem_of_mem_zipIdx ha
    rw [List.length_map] at hj
    obtain ⟨hbank, hindex⟩ := Convention.register_of_mem_zip hbegun.assigned hmem
    exact permits_instr fun hsmall =>
      .loadArg hbank hindex (holds_staging hsmall hlevel (by omega))
  · have htake : ∀ r, result = some r → r.index < cpu.isa.pool r.bank := by
      intro r hr
      rw [hbegun.result_eq] at hr
      by_cases htype : type = .noType
      · simp [htype] at hr
      · rw [if_neg htype] at hr
        obtain rfl := Option.some.inj hr
        rw [Machine.bank_slotOf, Machine.index_slotOf]
        exact hbegun.depth_lt htype
    cases result with
    | none => exact hrestore.bind fun _ _ => meets_pure rfl
    | some r =>
      exact (permits_instr fun _ => .takeResult (htake r rfl)).bind fun _ _ =>
        hrestore.bind fun _ _ => meets_pure rfl

/-! ## Vectors -/

/-- The two buffers for vectors. -/
lemma holds_scratch {access : Access} {index offset : Nat} (hsmall : m.SmallFrame cpu)
    (hvectors : m.trees.any Node.hasVector = true) (hindex : index < 2) (hoffset : offset ≤ 16)
    (hbytes : access.bytes ∣ 16) (hdvd : access.bytes ∣ offset) :
    cpu.isa.Holds access
      (frameOffset ((Frame.plan m cpu.isa.deepest).scratch index + offset)) := by
  refine holds_frameOffset hsmall (fun hfits => ?_) ?_
  · have hscratch := hfits.scratch_le hvectors
    simp only [Frame.scratch, vectorBytes] at hscratch ⊢
    omega
  · have haligned := Frame.aligned_plan m cpu.isa.deepest
    exact Nat.dvd_add (Nat.dvd_add (Nat.dvd_trans hbytes haligned.scratchBase)
      (Nat.dvd_trans hbytes (Nat.dvd_mul_left 16 index))) hdvd

lemma permits_lane {vop : VectorOp} {l : Lane} {i : Nat} (hdiv : vop = .div → l.isFloat = true)
    (hvectors : m.trees.any Node.hasVector = true) (hi : i < l.count)
    (hdepth : depth < cpu.isa.pool (Bank.ofType (.ofLane l)))
    (hnext : depth + 1 < cpu.isa.pool (Bank.ofType (.ofLane l))) :
    Permits m cpu fallback ((m.plan cpu fallback).lane vop l (slotOf (.ofLane l) depth)
      (slotOf (.ofLane l) (depth + 1)) (i * l.bytes)) fun _ => True := by
  have hbank (k : Nat) : (Access.ofLane l).bank = (slotOf (.ofLane l) k).bank := by
    rw [Machine.bank_slotOf]
    cases l <;> rfl
  have hpool {k : Nat} (hk : k < cpu.isa.pool (Bank.ofType (.ofLane l))) :
      (slotOf (.ofLane l) k).index < cpu.isa.pool (slotOf (.ofLane l) k).bank := by
    rw [Machine.bank_slotOf, Machine.index_slotOf]
    exact hk
  have hholds (hsmall : m.SmallFrame cpu) {index : Nat} (hindex : index < 2) :
      cpu.isa.Holds (.ofLane l)
        (frameOffset ((Frame.plan m cpu.isa.deepest).scratch index + i * l.bytes)) := by
    have hbytes : (Access.ofLane l).bytes = l.bytes := by cases l <;> rfl
    refine holds_scratch hsmall hvectors hindex ?_ ?_ ?_
    · rw [← show l.count * l.bytes = 16 from l.count_mul_bytes]
      exact Nat.mul_le_mul_right _ (Nat.le_of_lt hi)
    · rw [hbytes, ← show l.count * l.bytes = 16 from l.count_mul_bytes]
      exact Nat.dvd_mul_left _ _
    · rw [hbytes]
      exact Nat.dvd_mul_left _ _
  have hstore : Permits m cpu fallback (.instr (.store (.ofLane l) (slotOf (.ofLane l) depth)
      .frame (frameOffset ((Frame.plan m cpu.isa.deepest).scratch 0 + i * l.bytes))))
      fun _ => True :=
    permits_instr fun hsmall => .store (hbank _) (hpool hdepth) (by simp)
      fun _ => hholds hsmall (by omega)
  unfold lane
  refine (permits_instr fun hsmall => .load (hbank _) (hpool hdepth) (by simp)
    fun _ => hholds hsmall (by omega)).bind fun _ _ =>
      (permits_instr fun hsmall => .load (hbank _) (hpool hnext) (by simp)
        fun _ => hholds hsmall (by omega)).bind fun _ _ => ?_
  simp only [Machine.index_slotOf]
  by_cases hfloat : l.isFloat = true
  · have hvector : Bank.ofType (.ofLane l) = .vector := by cases l <;> first | rfl | cases hfloat
    rw [hvector] at hdepth hnext
    rw [if_pos hfloat]
    exact (permits_instr fun _ => .floatOp hdepth hnext).bind fun _ _ => hstore
  · have hgeneral : Bank.ofType (.ofLane l) = .general := by
      cases l <;> first | rfl | exact absurd rfl hfloat
    rw [hgeneral] at hdepth hnext
    rw [if_neg hfloat]
    cases vop with
    | div => exact absurd (hdiv rfl) hfloat
    | _ =>
      exact (permits_instr fun _ => .intOp (by simp) hdepth hnext).bind
        fun _ _ => hstore

lemma permits_scalarize {vop : VectorOp} {l : Lane} (hdiv : vop = .div → l.isFloat = true)
    (hvectors : m.trees.any Node.hasVector = true) (hdepth : depth < cpu.isa.pool .vector)
    (hnext : depth + 1 < cpu.isa.pool .vector) :
    Permits m cpu fallback ((m.plan cpu fallback).scalarize vop l depth) fun _ => True := by
  have hholds (hsmall : m.SmallFrame cpu) {index : Nat} (hindex : index < 2) :
      cpu.isa.Holds .v128 (frameOffset ((Frame.plan m cpu.isa.deepest).scratch index)) := by
    have hzero : cpu.isa.Holds .v128
        (frameOffset ((Frame.plan m cpu.isa.deepest).scratch index + 0)) :=
      holds_scratch hsmall hvectors hindex (by omega) (by decide) (by decide)
    rwa [Nat.add_zero] at hzero
  have hcount : Permits m cpu fallback .countScalarized fun _ => True :=
    meets_of_ok rfl (fun _ ho => absurd ho List.not_mem_nil) trivial
  unfold scalarize
  refine hcount.bind fun _ _ => (permits_instr fun hsmall =>
    .store (r := .vector depth) rfl hdepth (by simp)
      fun _ => hholds hsmall (by omega)).bind fun _ _ => (permits_instr fun hsmall =>
        .store (r := .vector (depth + 1)) rfl hnext (by simp)
          fun _ => hholds hsmall (by omega)).bind fun _ _ => ?_
  refine permits_register.bind fun lhs hlhs => permits_register.bind fun rhs hrhs => ?_
  obtain ⟨rfl, hdepth'⟩ := hlhs
  obtain ⟨rfl, hnext'⟩ := hrhs
  refine Meets.bind (Q := fun _ => True) (meets_forM fun i hi => ?_) fun _ _ => ?_
  · exact permits_lane hdiv hvectors (List.mem_range.mp hi) hdepth' hnext'
  · exact permits_instr fun hsmall => .load (r := .vector depth) rfl hdepth (by simp)
      fun _ => hholds hsmall (by omega)

lemma permits_combineVectors {vop : VectorOp} {l : Lane} (hdiv : vop = .div → l.isFloat = true)
    (hvectors : m.trees.any Node.hasVector = true) (hdepth : depth < cpu.isa.pool .vector)
    (hnext : depth + 1 < cpu.isa.pool .vector) :
    Permits m cpu fallback ((m.plan cpu fallback).combineVectors vop l depth (depth + 1))
      fun _ => True := by
  unfold combineVectors
  by_cases hsupports : (m.plan cpu fallback).cpu.supports vop l = true
  · rw [if_pos hsupports]
    exact permits_instr fun _ => .vectorOp rfl hsupports hdepth hnext
  · rw [if_neg hsupports]
    exact permits_scalarize hdiv hvectors hdepth hnext

lemma permits_checkVector {vop : VectorOp} {l : Lane}
    (hn : m.HasNode (.node op (.vector l) imm children)) (hop : op.vectorOp? = some vop) :
    Permits m cpu fallback ((m.plan cpu fallback).checkVector vop l) fun _ => True := by
  rw [checkVector_eq]
  refine (meets_ensure fun hnot => ?_).weaken fun _ _ => trivial
  obtain ⟨hlacks, hfallback⟩ : cpu.supports vop l = false ∧ fallback ≠ .scalarize := by
    simpa [Method.plan] using hnot
  refine .lacking hn hop ?_ hlacks
  cases fallback with
  | fail => rfl
  | scalarize => exact absurd rfl hfallback

/-! ## Trees -/

lemma permits_rotateLeft {wide : Bool} (hdepth : depth < cpu.isa.pool .general)
    (hnext : depth + 1 < cpu.isa.pool .general) :
    Permits m cpu fallback ((m.plan cpu fallback).rotateLeft wide depth (depth + 1))
      fun _ => True := by
  unfold rotateLeft
  by_cases hleft : (m.plan cpu fallback).cpu.rotatesLeft = true
  · rw [if_pos hleft]
    refine permits_instr fun _ => .intOp (fun hisa => ?_) hdepth hnext
    simp only [Method.plan, Cpu.rotatesLeft, hisa] at hleft
    cases hleft
  · rw [if_neg hleft]
    exact (permits_instr fun _ => .intNeg hnext).bind fun _ _ =>
      permits_instr fun _ => .intOp (by simp) hdepth hnext

lemma permits_constant {s : Scope} (hscalar : type.isScalar)
    (hfits : imm.Fits s .const type) (hdepth : depth < cpu.isa.pool (Bank.ofType type)) :
    Permits m cpu fallback (constant type depth imm) fun _ => True := by
  rcases hfits with ⟨hfloating, bits, rfl⟩ | ⟨hfloating, v, rfl, -⟩
  · have hbank := (DataType.isFloating_ne hfloating).2.2.2
    rw [hbank] at hdepth
    simp only [constant]
    by_cases htype : type = .double
    · rw [if_pos htype]
      exact permits_instr fun _ => .fmovImm hdepth
    · rw [if_neg htype]
      exact permits_instr fun _ => .fmovImm hdepth
  · have hbank : Bank.ofType type = .general := by
      cases type <;> simp_all [DataType.isScalar, DataType.isFloating, Bank.ofType,
        DataType.isIntegral]
    rw [hbank] at hdepth
    exact permits_instr fun _ => .movImm hdepth

/-- Evaluating the tree leaves its value in the register for its type, or lowering ends as it
may. -/
def Sound (m : Method) (cpu : Cpu) (fallback : VectorFallback) (n : Node) : Prop :=
  ∀ held level depth, Pending cpu.isa held depth →
    n.Within (Node.callShapes m.trees) (m.trees.any Node.hasVector) level →
      Permits m cpu fallback ((m.plan cpu fallback).eval held level depth n)
        fun r => r = slotOf n.type depth ∧ depth < cpu.isa.pool (Bank.ofType n.type)

section Operands

variable (hsound : ∀ c ∈ children, Sound m cpu fallback c)
  (hpending : Pending cpu.isa held depth)
  (hwithin : ∀ c ∈ children,
    c.Within (Node.callShapes m.trees) (m.trees.any Node.hasVector) level)

include hsound hpending hwithin

lemma permits_evalFirst {t : DataType} (htypes : children.map Node.type = [t]) :
    Permits m cpu fallback ((m.plan cpu fallback).evalFirst held level depth children)
      fun r => r = slotOf t depth ∧ depth < cpu.isa.pool (Bank.ofType t) := by
  obtain ⟨a, rfl, rfl⟩ := map_type_eq_singleton_iff.mp htypes
  rw [evalFirst]
  exact hsound a (by simp) held level depth hpending (hwithin a (by simp))

lemma permits_evalPair {t u : DataType} (htypes : children.map Node.type = [t, u]) :
    Permits m cpu fallback ((m.plan cpu fallback).evalPair held level depth children)
      fun r => r = (slotOf t depth, slotOf u (depth + 1)) ∧
        depth < cpu.isa.pool (Bank.ofType t) ∧ depth + 1 < cpu.isa.pool (Bank.ofType u) := by
  obtain ⟨a, b, rfl, rfl, rfl⟩ := map_type_eq_pair_iff.mp htypes
  rw [evalPair]
  refine (hsound a (by simp) held level depth hpending (hwithin a (by simp))).bind
    fun lhs hleft => ?_
  obtain ⟨rfl, hdepth⟩ := hleft
  refine (hsound b (by simp) _ level _ (hpending.snoc hdepth) (hwithin b (by simp))).bind
    fun rhs hright => meets_pure ?_
  obtain ⟨hrhs, hnext⟩ := hright
  rw [hrhs]
  exact ⟨rfl, hdepth, hnext⟩

/-- Two operands, and what is done with them. -/
lemma permits_withPair {α : Type} {t u : DataType} {f : Reg × Reg → Lowering α} {Q : α → Prop}
    (htypes : children.map Node.type = [t, u])
    (hf : depth < cpu.isa.pool (Bank.ofType t) → depth + 1 < cpu.isa.pool (Bank.ofType u) →
      Permits m cpu fallback (f (slotOf t depth, slotOf u (depth + 1))) Q) :
    Permits m cpu fallback ((m.plan cpu fallback).evalPair held level depth children >>= f) Q := by
  refine (permits_evalPair hsound hpending hwithin htypes).bind fun r hr => ?_
  obtain ⟨rfl, hleft, hright⟩ := hr
  exact hf hleft hright

/-- A lane-wise operation. -/
lemma permits_vector {l : Lane} {vop : VectorOp}
    (haccepts : op.Accepts (.vector l) (children.map Node.type)) (hvop : op.vectorOp? = some vop)
    (hnode : m.HasNode (.node op (.vector l) imm children))
    (hvectors : m.trees.any Node.hasVector = true) :
    Permits m cpu fallback (do
      (m.plan cpu fallback).checkVector vop l
      let ab ← (m.plan cpu fallback).evalPair held level depth children
      (m.plan cpu fallback).combineVectors vop l depth ab.2.index) fun _ => True := by
  have hdiv : vop = .div → l.isFloat = true := by
    rintro rfl
    obtain rfl : op = .div := by cases op <;> simp_all [Opcode.vectorOp?]
    rcases haccepts.1 with hfloating | hlane | hlane
    · cases hfloating
    · cases hlane
      rfl
    · cases hlane
      rfl
  refine (permits_checkVector hnode hvop).bind fun _ _ =>
    permits_withPair hsound hpending hwithin (haccepts.of_vectorOp? hvop) fun hleft hright => ?_
  rw [Machine.index_slotOf]
  exact permits_combineVectors hdiv hvectors hleft hright

/-- An operation on integers that is one instruction. -/
lemma permits_integer {iop : IntOp}
    (haccepts : op.Accepts type (children.map Node.type)) (hiop : IntOp.ofOpcode? op = some iop)
    (hscalar : op.vectorOp?.isSome → type.lane? = none ∧ type.isFloating = false) :
    Permits m cpu fallback (do
      let ab ← (m.plan cpu fallback).evalPair held level depth children
      .instr (.intOp iop type.isWide depth ab.2.index)) fun _ => True := by
  obtain ⟨hword, right, htypes, htakes⟩ := haccepts.of_ofOpcode? hiop hscalar
  have hbank := (DataType.isWord_ne hword).2.2.2
  have hbank' : Bank.ofType right = .general := by
    rcases htakes with rfl | ⟨rfl, -⟩
    · exact hbank
    · rfl
  have hrol : iop ≠ .rol := by
    rintro rfl
    cases op <;> simp [IntOp.ofOpcode?] at hiop
  refine permits_withPair hsound hpending hwithin htypes fun hleft hright => ?_
  rw [Machine.index_slotOf]
  exact permits_instr fun _ => .intOp (fun _ => hrol) (hbank ▸ hleft) (hbank' ▸ hright)

end Operands

lemma permits_evalArguments {j : Nat} (hsound : ∀ c ∈ children, Sound m cpu fallback c)
    (hpending : Pending cpu.isa held depth)
    (hscalar : ∀ c ∈ children, c.type.isScalar)
    (hwithin : ∀ c ∈ children,
      c.Within (Node.callShapes m.trees) (m.trees.any Node.hasVector) (level + 1))
    (hlevel : level < (Node.callShapes m.trees).levels)
    (hwidth : j + children.length ≤ (Node.callShapes m.trees).width) :
    Permits m cpu fallback ((m.plan cpu fallback).evalArguments held level depth j children)
      fun _ => True := by
  induction children generalizing j with
  | nil =>
    rw [evalArguments]
    exact meets_pure trivial
  | cons n ns ih =>
    rw [List.forall_mem_cons] at hsound hscalar hwithin
    rw [List.length_cons] at hwidth
    rw [evalArguments]
    refine (hsound.1 held (level + 1) depth hpending hwithin.1).bind fun r hr => ?_
    obtain ⟨rfl, hdepth⟩ := hr
    obtain ⟨hno, hvector⟩ := DataType.isScalar_iff.mp hscalar.1
    refine (permits_instr fun hsmall => .store ?_ ?_ (by simp) fun _ =>
      holds_staging hsmall hlevel (by omega)).bind fun _ _ =>
        ih hsound.2 hscalar.2 hwithin.2 (by omega)
    · rw [Access.bank_slot hno hvector, Machine.bank_slotOf]
    · rw [Machine.bank_slotOf, Machine.index_slotOf]
      exact hdepth

/-- The slot of a parameter. -/
lemma holds_param {i : Nat} (hsmall : m.SmallFrame cpu) (hi : i < m.params.length)
    {access : Access} (hbytes : access.bytes ∣ 8) :
    cpu.isa.Holds access (frameOffset ((Frame.plan m cpu.isa.deepest).param i)) := by
  refine holds_frameOffset hsmall (fun hfits => ?_) (Nat.dvd_trans hbytes (Nat.dvd_mul_left 8 i))
  have hparams := hfits.params_le
  have hsize := hfits.spillBase_le_size
  simp only [Frame.param, slotBytes] at hparams ⊢
  omega

/-- A call, and what is done with its result. -/
lemma permits_call {α : Type} {target : UInt64} {f : Option Reg → Lowering α} {Q : α → Prop}
    (hn : m.HasNode (.node .call type (.address target) children))
    (hsound : ∀ c ∈ children, Sound m cpu fallback c)
    (hscalar : ∀ t ∈ children.map Node.type, t.isScalar)
    (hpending : Pending cpu.isa held depth) (hheld : type = .noType → held = [])
    (hwithin : Node.Within (Node.callShapes m.trees) (m.trees.any Node.hasVector) level
      (.node .call type (.address target) children))
    (hf : (type ≠ .noType → depth < cpu.isa.pool (Bank.ofType type)) →
      Permits m cpu fallback (f (if type = .noType then none else some (slotOf type depth))) Q) :
    Permits m cpu fallback (do
      let c ← (m.plan cpu fallback).beginCall type (.address target)
        (children.map Node.type) depth
      (m.plan cpu fallback).evalArguments held level depth 0 children
      let r ← (m.plan cpu fallback).endCall held level c
      f r) Q := by
  obtain ⟨hlevel, hwidth⟩ := hwithin.room_of_call
  refine (permits_beginCall hn).bind fun c hc => ?_
  obtain ⟨arguments, hbegun, hc⟩ := hc
  refine (permits_evalArguments hsound hpending (by simpa using hscalar)
    (fun c hc => hwithin.of_mem_call hc) hlevel (by omega)).bind fun _ _ => ?_
  -- a call without a result stands at the top of a tree, where nothing is waited for
  have hdeepest : held.length ≤ cpu.isa.deepest := by
    by_cases htype : type = .noType
    · rw [hheld htype]
      exact Nat.zero_le _
    · have hdepth : depth < cpu.isa.pool (Bank.ofType type) := hbegun.depth_lt htype
      rw [hpending.length_eq]
      refine Nat.le_of_lt (Nat.lt_of_lt_of_le hdepth ?_)
      cases Bank.ofType type
      · exact Nat.le_max_left _ _
      · exact Nat.le_max_right _ _
  rw [hc]
  refine (permits_endCall hn hbegun hlevel hwidth hdeepest hpending.in_pool).bind fun r hr => ?_
  rw [hr, hbegun.result_eq]
  exact hf hbegun.depth_lt

lemma sound_call (haccepts : Opcode.call.Accepts type (children.map Node.type))
    (hfits : imm.Fits m.scope .call type) (htype : type ≠ .noType)
    (hnode : m.HasNode (.node .call type imm children))
    (hsound : ∀ c ∈ children, Sound m cpu fallback c) :
    Sound m cpu fallback (.node .call type imm children) := by
  intro held level depth hpending hwithin
  obtain ⟨target, rfl, -⟩ := hfits
  rw [eval, if_pos rfl]
  refine permits_call hnode hsound haccepts.2 hpending (fun h => absurd h htype) hwithin
    fun hdepth => ?_
  rw [if_neg htype]
  exact meets_pure ⟨rfl, hdepth htype⟩

lemma sound_of_ne_call (hop : op ≠ .call) (haccepts : op.Accepts type (children.map Node.type))
    (hfits : imm.Fits m.scope op type)
    (hvalue : (Node.node op type imm children).producesValue)
    (hnode : m.HasNode (.node op type imm children))
    (hsound : ∀ c ∈ children, Sound m cpu fallback c) :
    Sound m cpu fallback (.node op type imm children) := by
  intro held level depth hpending hwithin
  have hchildren : ∀ c ∈ children,
      c.Within (Node.callShapes m.trees) (m.trees.any Node.hasVector) level :=
    fun c hc => hwithin.of_mem hop hc
  have hone {t : DataType} (htypes : children.map Node.type = [t]) :=
    permits_evalFirst hsound hpending hchildren htypes
  obtain ⟨own, hown, heval⟩ :=
    (m.plan cpu fallback).exists_own held level depth type imm children hop
  rw [heval]
  refine permits_register.bind fun _ hregister => ?_
  obtain ⟨-, hdepth⟩ := hregister
  suffices hpermits : Permits m cpu fallback own fun _ => True from
    hpermits.bind fun _ _ => meets_pure ⟨rfl, hdepth⟩
  have hpool : (slotOf type depth).index < cpu.isa.pool (slotOf type depth).bank := by
    rw [Machine.bank_slotOf, Machine.index_slotOf]
    exact hdepth
  cases hown with
  | load hop himm =>
    subst hop
    obtain ⟨hscalar, -⟩ := haccepts
    obtain ⟨i, hi, hparam⟩ := hfits
    obtain rfl := Immediate.parm.inj (himm.symm.trans hi)
    obtain ⟨hlt, -⟩ := List.getElem?_eq_some_iff.mp hparam
    obtain ⟨hno, hvector⟩ := DataType.isScalar_iff.mp hscalar
    refine permits_instr fun hsmall => .load ?_ hpool (by simp) fun _ => holds_param hsmall hlt ?_
    · rw [Access.bank_ofType hno, Machine.bank_slotOf]
    · cases type <;> simp_all [DataType.isVector, DataType.lane?, Access.ofType, Access.bytes]
  | const hop =>
    subst hop
    exact permits_constant haccepts.1 hfits hdepth
  | loadIndirect hop =>
    subst hop
    obtain ⟨hno, htypes⟩ := haccepts
    refine (hone htypes).bind fun a hleft => ?_
    obtain ⟨ha, haddress⟩ := hleft
    rw [ha, Machine.index_slotOf]
    refine permits_instr fun _ => .load ?_ hpool ?_ (by simp)
    · rw [Access.bank_ofType hno, Machine.bank_slotOf]
    · rintro index ⟨⟩
      exact haddress
  | neg hop =>
    subst hop
    obtain ⟨hword, htypes⟩ := haccepts
    have hbank := (DataType.isWord_ne hword).2.2.2
    exact (hone htypes).bind fun _ _ => permits_instr fun _ => .intNeg (hbank ▸ hdepth)
  | sqrt hop =>
    subst hop
    obtain ⟨hfloating, htypes⟩ := haccepts
    have hbank := (DataType.isFloating_ne hfloating).2.2.2
    exact (hone htypes).bind fun _ _ => permits_instr fun _ => .floatSqrt (hbank ▸ hdepth)
  | rol hop =>
    subst hop
    obtain ⟨hword, htypes⟩ := haccepts
    have hbank := (DataType.isWord_ne hword).2.2.2
    refine permits_withPair hsound hpending hchildren htypes fun hleft hright => ?_
    simp only [Machine.index_slotOf]
    exact permits_rotateLeft (hbank ▸ hleft) hright
  | vector htype hvop =>
    subst htype
    exact permits_vector hsound hpending hchildren haccepts hvop hnode (hwithin.vectors_of_type rfl)
  | floating hfloating hvop =>
    have hbank := (DataType.isFloating_ne hfloating).2.2.2
    refine permits_withPair hsound hpending hchildren (haccepts.of_vectorOp? hvop)
      fun hleft hright => ?_
    simp only [Machine.index_slotOf]
    exact permits_instr fun _ => .floatOp (hbank ▸ hleft) (hbank ▸ hright)
  | integer hiop hscalar => exact permits_integer hsound hpending hchildren haccepts hiop hscalar
  | noParameter hop himm =>
    subst hop
    obtain ⟨i, hi, -⟩ := hfits
    exact absurd hi (himm i)
  | noValue hne hiop hscalar =>
    -- every opcode is one of those above, or has no value
    exfalso
    cases op with
    | div =>
      obtain ⟨hlane, hfloating⟩ := hscalar rfl
      rcases haccepts.1 with h | rfl | rfl
      · rw [hfloating] at h
        cases h
      · cases hlane
      · cases hlane
    | _ => simp_all [IntOp.ofOpcode?, Node.producesValue, Node.op]

/-- **Lowering of a well-typed tree ends well, or because of registers or capabilities.** -/
theorem sound_of_wellTyped {n : Node} (hn : n.WellTyped m.scope) (hvalue : n.producesValue)
    (hnode : m.HasNode n) : Sound m cpu fallback n := by
  induction hn with
  | @node op type imm children accepts fits _ values operands ih =>
    have hsound : ∀ c ∈ children, Sound m cpu fallback c :=
      fun c hc => ih c hc (values c hc) (.child hnode hc)
    by_cases hop : op = .call
    · subst hop
      exact sound_call accepts fits (Node.type_ne_of_producesValue hvalue) hnode hsound
    · exact sound_of_ne_call hop accepts fits hvalue hnode hsound

end Plan

end TreeCode
