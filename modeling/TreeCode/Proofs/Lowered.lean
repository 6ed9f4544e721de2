import Mathlib.Tactic.Common
import TreeCode.Proofs.Emitted

/-!
# Lowering of methods

Trees make up blocks and blocks make up a method.  What lowering of a well-typed method comes to,
whether it ends well or not, is said in one place (`Method.Lowered`); the rest of the theory of
assembling looks at nothing else of lowering.
-/

namespace TreeCode

namespace Plan

open Lowering hiding pure bind fail op instr
open Machine (Pending)

variable {m : Method} {cpu : Cpu} {fallback : VectorFallback} {op : Opcode} {type : DataType}
  {imm : Immediate}

/-! ## Blocks -/

lemma permits_target {s : Scope} (hlabels : s.labels = m.blocks.map Block.name)
    (hfits : ∃ t name, imm = .target t ∧ s.labels[t]? = some (some name)) :
    Permits m cpu fallback ((m.plan cpu fallback).target op type imm)
      fun label => label ≤ m.blocks.length := by
  obtain ⟨t, name, rfl, ht⟩ := hfits
  obtain ⟨hlt, -⟩ := List.getElem?_eq_some_iff.mp ht
  rw [hlabels, List.length_map] at hlt
  have hblocks : t < (m.plan cpu fallback).blocks := hlt
  rw [target, if_pos hblocks]
  exact meets_pure (Nat.le_of_lt hlt)

/-- The trees of a block. -/
theorem permits_treetop {last : Bool} {n : Node} (hn : n.WellTyped m.scope)
    (hnode : m.HasNode n)
    (hwithin : n.Within (Node.callShapes m.trees) (m.trees.any Node.hasVector) 0) :
    Permits m cpu fallback ((m.plan cpu fallback).treetop last n) fun _ => True := by
  have hpending : Pending cpu.isa [] 0 := ⟨rfl, by simp, by simp⟩
  have hwhole := hn
  cases hn with
  | @node op type imm children accepts fits _ values operands =>
    have hsound : ∀ c ∈ children, Sound m cpu fallback c :=
      fun c hc => sound_of_wellTyped (operands c hc) (values c hc) (.child hnode hc)
    have hslot {t : DataType} {depth : Nat} (hdepth : depth < cpu.isa.pool (Bank.ofType t)) :
        (slotOf t depth).index < cpu.isa.pool (slotOf t depth).bank := by
      rw [Machine.bank_slotOf, Machine.index_slotOf]
      exact hdepth
    unfold treetop
    simp only [Node.op, Node.type, Node.imm, Node.children]
    split
    case h_1 =>
      obtain ⟨hno, htypes⟩ := accepts
      refine permits_withPair hsound hpending (fun c hc => hwithin.of_mem (by simp) hc) htypes
        fun hleft hright => ?_
      refine permits_instr fun _ => .store ?_ (hslot hright) ?_ (by simp)
      · rw [Access.bank_ofType hno, Machine.bank_slotOf]
      · rintro index ⟨⟩
        rw [Machine.index_slotOf]
        exact hleft
    case h_2 =>
      have hjump : Permits m cpu fallback (if (!last) = true then
          .op (.transfer (.jump (m.plan cpu fallback).epilogue)) else Pure.pure PUnit.unit)
          fun _ => True := by
        cases last with
        | true => exact meets_pure trivial
        | false => exact meets_op (.jump (Nat.le_refl _))
      rcases accepts with ⟨-, hnone⟩ | ⟨-, htypes⟩
      · obtain rfl : children = [] := by simpa using hnone
        exact hjump
      · have hmove := permits_evalFirst hsound hpending
          (fun c hc => hwithin.of_mem (by simp) hc) htypes
        obtain ⟨a, rfl, rfl⟩ := map_type_eq_singleton_iff.mp htypes
        refine hmove.bind fun r hr => ?_
        obtain ⟨rfl, hdepth⟩ := hr
        exact (permits_instr fun _ => .moveResult (hslot hdepth)).bind fun _ _ => hjump
    case h_3 =>
      exact (permits_target rfl fits).bind fun label hlabel => meets_op (.jump hlabel)
    case h_4 c =>
      obtain ⟨hword, htypes⟩ := accepts
      have hbank := (DataType.isWord_ne hword).2.2.2
      refine permits_withPair hsound hpending (fun c hc => hwithin.of_mem (by simp) hc) htypes
        fun hleft hright => ?_
      simp only [Machine.index_slotOf]
      exact (permits_instr fun _ => .compare (hbank ▸ hleft) (hbank ▸ hright)).bind
        fun _ _ => (permits_target rfl fits).bind fun label hlabel => meets_op (.branchIf hlabel)
    case h_5 =>
      obtain ⟨target, rfl, -⟩ := fits
      exact permits_call hnode hsound accepts.2 hpending (fun _ => rfl) hwithin
        fun _ => meets_pure trivial
    case h_6 hstore hret hgoto hifcmp hcall =>
      have hvalue : (Node.node op type imm children).producesValue :=
        accepts.producesValue hstore hret hgoto hifcmp hcall
      exact (sound_of_wellTyped hwhole hvalue hnode [] 0 0 hpending hwithin).bind
        fun _ _ => meets_pure trivial

lemma permits_trees {final : Bool} {b : Block} {ns : List Node} (hb : b ∈ m.blocks)
    (hns : ∀ n ∈ ns, n ∈ b.trees) (htyped : ∀ n ∈ ns, n.WellTyped m.scope) :
    Permits m cpu fallback ((m.plan cpu fallback).trees final ns) fun _ => True := by
  induction ns with
  | nil => exact meets_pure trivial
  | cons n ns ih =>
    rw [List.forall_mem_cons] at hns htyped
    have hwithin := Node.within_of_mem (List.mem_flatMap.mpr ⟨b, hb, hns.1⟩)
    exact (permits_treetop htyped.1 (.root hb hns.1) hwithin).bind fun _ _ => ih hns.2 htyped.2

end Plan

/-! ## Methods -/

namespace Lowering

variable {α β : Type} {x : Lowering α} {f : α → Lowering β}

/-- The labels that lowering binds, in order. -/
def bound (x : Lowering α) : List Nat := x.ops.filterMap Op.label?

/-- Lowering that ends well binds the labels, and lowering that ends with an error binds the first
ones of them. -/
structure Binds (x : Lowering α) (labels : List Nat) : Prop where
  initial : x.bound <+: labels
  all : ∀ a, x.result = .ok a → x.bound = labels

lemma Binds.of_eq {labels : List Nat} (h : x.bound = labels) : x.Binds labels where
  initial := h ▸ List.prefix_rfl
  all _ _ := h

lemma Binds.bind {first rest : List Nat} (hx : x.Binds first) (hf : ∀ a, (f a).Binds rest) :
    (x >>= f).Binds (first ++ rest) := by
  obtain ⟨ops, n, result⟩ := x
  cases result with
  | error e => exact ⟨hx.initial.trans (List.prefix_append first rest), fun a ha => by cases ha⟩
  | ok a =>
    have hbound : (Lowering.bind ⟨ops, n, .ok a⟩ f).bound = first ++ (f a).bound := by
      rw [← hx.all a rfl]
      exact List.filterMap_append
    refine ⟨?_, fun b hb => ?_⟩
    · rw [show (_ >>= f : Lowering β).bound = _ from hbound]
      exact (List.prefix_append_right_inj first).mpr (hf a).initial
    · exact hbound.trans (congrArg (first ++ ·) ((hf a).all b hb))

/-- Lowering of trees binds no label. -/
lemma binds_nil {m : Method} {cpu : Cpu} {fallback : VectorFallback} {Q : α → Prop}
    (h : Plan.Permits m cpu fallback x Q) : x.Binds [] := by
  refine .of_eq (List.filterMap_eq_nil_iff.mpr fun o ho => ?_)
  cases h.ops o ho <;> rfl

lemma binds_label (label : Nat) : (op (.bind label)).Binds [label] := .of_eq rfl

end Lowering

namespace Plan

open Lowering hiding pure bind fail op instr

variable {m : Method} {cpu : Cpu} {fallback : VectorFallback}

/-- Blocks bind their labels one after the other. -/
lemma binds_blocksFrom {index : Nat} {bs : List Block} (hbs : ∀ b ∈ bs, b ∈ m.blocks)
    (htyped : ∀ b ∈ bs, ∀ n ∈ b.trees, n.WellTyped m.scope) :
    ((m.plan cpu fallback).blocksFrom index bs).Binds (List.range' index bs.length) := by
  induction bs generalizing index with
  | nil => exact .of_eq rfl
  | cons b bs ih =>
    rw [List.forall_mem_cons] at hbs htyped
    have htrees : Permits m cpu fallback ((m.plan cpu fallback).trees bs.isEmpty b.trees)
        fun _ => True := permits_trees hbs.1 (fun _ h => h) htyped.1
    rw [blocksFrom, List.length_cons, List.range'_succ]
    exact (binds_label index).bind fun _ => (binds_nil htrees).bind fun _ => ih hbs.2 htyped.2

lemma meets_blocksFrom {index : Nat} {bs : List Block} (hbs : ∀ b ∈ bs, b ∈ m.blocks)
    (htyped : ∀ b ∈ bs, ∀ n ∈ b.trees, n.WellTyped m.scope) :
    ((m.plan cpu fallback).blocksFrom index bs).Meets
      (fun o => m.Emits cpu o ∨ ∃ label, o = .bind label) (fun _ => True)
      (m.Stops cpu fallback) := by
  induction bs generalizing index with
  | nil => exact meets_pure trivial
  | cons b bs ih =>
    rw [List.forall_mem_cons] at hbs htyped
    have htrees : Permits m cpu fallback ((m.plan cpu fallback).trees bs.isEmpty b.trees)
        fun _ => True := permits_trees hbs.1 (fun _ h => h) htyped.1
    exact (meets_op (.inr ⟨index, rfl⟩)).bind fun _ _ =>
      (htrees.strengthen fun _ => .inl).bind fun _ _ => ih hbs.2 htyped.2

end Plan

namespace Method

open Lowering

variable {m : Method} {cpu : Cpu} {fallback : VectorFallback}

/-- What lowering of a method comes to, whether it ends well or not. -/
structure Lowered (m : Method) (cpu : Cpu) (fallback : VectorFallback) : Prop where
  emits : ∀ o ∈ (m.lower cpu fallback).ops, m.Emits cpu o ∨ ∃ label, o = .bind label
  bound : ∃ k ≤ m.blocks.length + 1, (m.lower cpu fallback).bound = List.range k
  all_bound : (m.lower cpu fallback).result = .ok () →
    (m.lower cpu fallback).bound = List.range (m.blocks.length + 1)
  stops : ∀ e, (m.lower cpu fallback).result = .error e → m.Stops cpu fallback e
  first : ∀ o ∈ (m.lower cpu fallback).ops.head?,
    o = .instr (.prologue (UInt32.ofNat (Frame.plan m cpu.isa.deepest).size))

/-- The first thing a method does is to store its parameters in its frame. -/
def storeParams (m : Method) (cpu : Cpu) (arguments : List Argument) : Lowering Unit :=
  (arguments.zip m.params).zipIdx.forM fun x => .instr (.spillArg x.1.1 (.slot x.1.2)
    (frameOffset ((Frame.plan m cpu.isa.deepest).param x.2)))

section Assigned

variable {arguments : List Argument}
  (hassign : cpu.isa.convention.assignAll m.params = some arguments)

include hassign

lemma lower_eq : m.lower cpu fallback = (do
    .instr (.prologue (UInt32.ofNat (Frame.plan m cpu.isa.deepest).size))
    m.storeParams cpu arguments
    (m.plan cpu fallback).blocksFrom 0 m.blocks
    .op (.bind m.blocks.length)
    .instr .epilogue) := by
  simp only [lower, hassign]
  rfl

lemma permits_storeParams :
    Plan.Permits m cpu fallback (m.storeParams cpu arguments) fun _ => True := by
  refine meets_forM ?_
  rintro ⟨⟨a, type⟩, i⟩ hx
  obtain ⟨hmem, hi⟩ := Plan.mem_of_mem_zipIdx hx
  obtain ⟨hbank, hindex⟩ := Convention.register_of_mem_zip hassign hmem
  exact Plan.permits_instr fun hsmall =>
    .spillArg hbank hindex (Plan.holds_param hsmall hi (Access.slot_bytes_dvd _))

variable (htyped : ∀ b ∈ m.blocks, ∀ n ∈ b.trees, n.WellTyped m.scope)

include htyped

lemma meets_lower : (m.lower cpu fallback).Meets
    (fun o => m.Emits cpu o ∨ ∃ label, o = .bind label) (fun _ => True)
    (m.Stops cpu fallback) := by
  have hparams : Plan.Permits m cpu fallback (m.storeParams cpu arguments) fun _ => True :=
    permits_storeParams hassign
  have hblocks := @Plan.meets_blocksFrom m cpu fallback 0 m.blocks (fun _ hb => hb) htyped
  rw [lower_eq hassign]
  exact (meets_instr (.inl .prologue)).bind fun _ _ => (hparams.strengthen fun _ => .inl).bind
    fun _ _ => hblocks.bind fun _ _ => (meets_op (.inr ⟨_, rfl⟩)).bind fun _ _ =>
      meets_instr (.inl (.instr fun _ => Isa.Admits.epilogue.encodes))

/-- The label of the end of the method is bound after those of its blocks. -/
lemma binds_lower : (m.lower cpu fallback).Binds (List.range (m.blocks.length + 1)) := by
  have hparams : Plan.Permits m cpu fallback (m.storeParams cpu arguments) fun _ => True :=
    permits_storeParams hassign
  have hblocks := @Plan.binds_blocksFrom m cpu fallback 0 m.blocks (fun _ hb => hb) htyped
  have hprologue : (Lowering.instr (.prologue
    (UInt32.ofNat (Frame.plan m cpu.isa.deepest).size))).Binds [] := .of_eq rfl
  rw [lower_eq hassign, List.range_succ, List.range_eq_range']
  exact hprologue.bind fun _ => (binds_nil hparams).bind fun _ => hblocks.bind fun _ =>
    (binds_label _).bind fun _ => .of_eq rfl

end Assigned

/-- **Lowering of a method** whose trees are well typed emits instructions that have an encoding and
transfers to places that there are, binds the labels one after the other, and ends with an error
only where registers or capabilities do not suffice.  Trees are not looked at if the parameters do
not get registers. -/
theorem lowered (htyped : ∀ arguments, cpu.isa.convention.assignAll m.params = some arguments →
    ∀ b ∈ m.blocks, ∀ n ∈ b.trees, n.WellTyped m.scope) : m.Lowered cpu fallback := by
  cases hassign : cpu.isa.convention.assignAll m.params with
  | none =>
    have hlower : m.lower cpu fallback =
        .fail (.unsupported "method" m.returnType (.parameters m.params)) := by
      simp only [lower, hassign]
    refine ⟨?_, ⟨0, Nat.zero_le _, ?_⟩, ?_, ?_, ?_⟩ <;> rw [hlower]
    · simp [Lowering.fail]
    · rfl
    · intro h
      cases h
    · intro e he
      obtain rfl := Except.error.inj he
      exact .parameters hassign
    · simp [Lowering.fail]
  | some arguments =>
    have htyped := htyped arguments hassign
    have hmeets : (m.lower cpu fallback).Meets _ _ (m.Stops cpu fallback) :=
      meets_lower hassign htyped
    have hbinds : (m.lower cpu fallback).Binds _ := binds_lower hassign htyped
    have hinitial := List.prefix_iff_eq_take.mp hbinds.initial
    rw [List.take_range] at hinitial
    refine ⟨hmeets.ops, ⟨_, Nat.min_le_right _ _, hinitial⟩, hbinds.all (), hmeets.error, ?_⟩
    rw [lower_eq hassign]
    rintro o ⟨⟩
    rfl

end Method

end TreeCode
