import Mathlib.Tactic.Common
import TreeCode.Proofs.Disassembly
import TreeCode.Proofs.Fixups
import TreeCode.Proofs.Pressure

/-!
# What the counters of code say

Machine code comes with three counters: of its direct transfers, of its indirect ones, and of the
lane-wise operations that were taken apart.  Lowering a well-typed tree yields a transfer for every
node of it that passes control on (`Plan.counts_eval`), but for a return at the very end of the
method (`Plan.exists_counts_treetop`).  Placing a transfer counts its form and puts one jump or call
of that form behind the code (`Placement.exists_accounts_foldlM`).  So the counters of a whole
method describe both its trees and its bytes (`Method.counters_of_assemble`).
-/

namespace TreeCode

/-! ## Nodes -/

/-- Whether a node passes control on to another place. -/
def Opcode.transfers : Opcode → Bool
  | .goto | .ifcmp _ | .ret | .call => true
  | _ => false

/-- Whether a node is lane-wise arithmetic that the processor has no instruction for. -/
def Cpu.lacks (cpu : Cpu) (op : Opcode) (type : DataType) : Bool :=
  match op.vectorOp?, type.lane? with
  | some vop, some l => !cpu.supports vop l
  | _, _ => false

namespace Node

mutual

/-- Number of nodes of the tree that satisfy `p`. -/
def count (p : Opcode → DataType → Bool) : Node → Nat
  | node op type _ children => (p op type).toNat + countOf p children

/-- Number of nodes of the trees that satisfy `p`. -/
def countOf (p : Opcode → DataType → Bool) : List Node → Nat
  | [] => 0
  | n :: ns => count p n + countOf p ns

end

lemma countOf_append (p : Opcode → DataType → Bool) (ns ms : List Node) :
    countOf p (ns ++ ms) = countOf p ns + countOf p ms := by
  induction ns with
  | nil => simp [countOf]
  | cons n ns ih => rw [List.cons_append, countOf, countOf, ih, Nat.add_assoc]

lemma count_of_not {q : Opcode → DataType → Bool} {op : Opcode} {type : DataType} {imm : Immediate}
    {children : List Node} (h : q op type = false) :
    (node op type imm children).count q = countOf q children := by
  rw [count, h]
  exact Nat.zero_add _

/-- Number of nodes that pass control on to another place. -/
abbrev transfers (n : Node) : Nat := n.count fun op _ => op.transfers

/-- Whether the last of some trees returns. -/
def lastReturns (ns : List Node) : Bool := ns.getLast?.any fun n => n.op == .ret

end Node

namespace Method

/-- Number of nodes of the method that satisfy `p`. -/
def count (m : Method) (p : Opcode → DataType → Bool) : Nat := Node.countOf p m.trees

/-- Whether the last tree of the last block returns. -/
def endsInReturn (m : Method) : Bool := m.blocks.getLast?.any fun b => Node.lastReturns b.trees

end Method

/-- Whether an operation passes control on to another place. -/
def Op.isTransfer : Op → Bool
  | .transfer _ => true
  | _ => false

/-! ## Lowering -/

/-- Lowering that yields so many transfers and takes so many lane-wise operations apart, if it ends
without an error. -/
def Lowering.Counts {α : Type} (x : Lowering α) (transfers scalarized : Nat) : Prop :=
  ∀ a, x.result = .ok a → x.ops.countP Op.isTransfer = transfers ∧ x.scalarized = scalarized

namespace Lowering

variable {α β : Type} {x : Lowering α} {f : α → Lowering β} {t s t' s' : Nat}

lemma counts_pure (a : α) : (Pure.pure a : Lowering α).Counts 0 0 := fun _ _ => ⟨rfl, rfl⟩

lemma counts_fail (e : CodeError) : (fail e : Lowering α).Counts t s := nofun

lemma counts_instr (i : Instr) : (instr i).Counts 0 0 := fun _ _ => ⟨rfl, rfl⟩

lemma counts_transfer (tr : Transfer) : (op (.transfer tr)).Counts 1 0 := fun _ _ => ⟨rfl, rfl⟩

lemma counts_bind (label : Nat) : (op (.bind label)).Counts 0 0 := fun _ _ => ⟨rfl, rfl⟩

lemma counts_countScalarized : countScalarized.Counts 0 1 := fun _ _ => ⟨rfl, rfl⟩

lemma Counts.bind (hx : x.Counts t s) (hf : ∀ a, (f a).Counts t' s') :
    (x >>= f).Counts (t + t') (s + s') := by
  obtain ⟨ops, n, result⟩ := x
  cases result with
  | error e => exact nofun
  | ok a =>
    intro b hb
    obtain ⟨htransfers, hscalarized⟩ := hx a rfl
    obtain ⟨htransfers', hscalarized'⟩ := hf a b hb
    exact ⟨List.countP_append.trans (by rw [htransfers, htransfers']),
      congrArg₂ _ hscalarized hscalarized'⟩

/-- What comes first yields nothing that is counted. -/
lemma Counts.next (hx : x.Counts 0 0) (hf : ∀ a, (f a).Counts t s) : (x >>= f).Counts t s := by
  have h := hx.bind hf
  rwa [Nat.zero_add, Nat.zero_add] at h

/-- What comes last yields nothing that is counted. -/
lemma Counts.before (hx : x.Counts t s) (hf : ∀ a, (f a).Counts 0 0) : (x >>= f).Counts t s :=
  hx.bind hf

lemma Counts.map (hx : x.Counts t s) (f : α → β) : (f <$> x).Counts t s :=
  hx.before fun a => counts_pure (f a)

lemma counts_forM {l : List α} {f : α → Lowering Unit} (hf : ∀ a, (f a).Counts 0 0) :
    (l.forM f).Counts 0 0 := by
  induction l with
  | nil => exact counts_pure ()
  | cons a l ih => exact (hf a).next fun _ => ih

end Lowering

namespace Plan

open Lowering hiding pure bind fail op instr

variable {p : Plan} {held : List Reg} {level depth : Nat} {s : Scope} {op : Opcode}
  {type : DataType} {imm : Immediate} {children : List Node} {n : Node}

lemma counts_unsupported {α : Type} {t s : Nat} {o : Obstacle} :
    (unsupported op type o : Lowering α).Counts t s := counts_fail _

lemma counts_register : (p.register type depth).Counts 0 0 := by
  unfold register
  dsimp only
  split
  · exact counts_pure _
  · exact counts_fail _

/-! ### Vectors -/

lemma counts_lane (vop : VectorOp) (l : Lane) (lhs rhs : Reg) (offset : Nat) :
    (p.lane vop l lhs rhs offset).Counts 0 0 := by
  unfold lane
  dsimp only
  refine (counts_instr _).next fun _ => (counts_instr _).next fun _ => ?_
  split
  · exact (counts_instr _).next fun _ => counts_instr _
  · split
    · exact (counts_instr _).next fun _ => counts_instr _
    · exact (counts_fail _).next fun _ => counts_instr _

lemma counts_scalarize (vop : VectorOp) (l : Lane) : (p.scalarize vop l depth).Counts 0 1 := by
  unfold scalarize
  refine counts_countScalarized.before fun _ => (counts_instr _).next fun _ =>
    (counts_instr _).next fun _ => counts_register.next fun _ => counts_register.next fun _ => ?_
  exact (counts_forM fun _ => counts_lane _ _ _ _ _).next fun _ => counts_instr _

/-- A lane-wise operation is taken apart if there is no instruction for it. -/
lemma counts_combineVectors (vop : VectorOp) (l : Lane) (rhs : Nat) :
    (p.combineVectors vop l depth rhs).Counts 0 (!p.cpu.supports vop l).toNat := by
  unfold combineVectors
  split
  · rename_i hsupports
    rw [hsupports]
    exact counts_instr _
  · rename_i hlacks
    rw [Bool.eq_false_iff.mpr hlacks]
    exact counts_scalarize _ _

lemma counts_checkVector (vop : VectorOp) (l : Lane) : (p.checkVector vop l).Counts 0 0 := by
  rw [checkVector_eq, ensure]
  split
  · exact counts_pure _
  · exact counts_fail _

/-! ### Calls -/

lemma counts_beginCall (types : List DataType) :
    (p.beginCall type imm types depth).Counts 0 0 := by
  unfold beginCall
  split
  · split
    · exact counts_unsupported
    · dsimp only
      split
      · exact (counts_pure _).next fun _ => counts_pure _
      · exact (counts_register.map some).next fun _ => counts_pure _
  · exact counts_unsupported

lemma counts_endCall (c : PendingCall) : (p.endCall held level c).Counts 1 0 := by
  unfold endCall save restore
  refine (counts_forM fun _ => counts_instr _).next fun _ =>
    (counts_forM fun _ => counts_instr _).next fun _ => (counts_transfer _).before fun _ => ?_
  split
  · exact (counts_instr _).next fun _ => (counts_forM fun _ => counts_instr _).next fun _ =>
      counts_pure _
  · exact (counts_forM fun _ => counts_instr _).next fun _ => counts_pure _

/-! ### Trees -/

lemma counts_rotateLeft (wide : Bool) (dst count : Nat) :
    (p.rotateLeft wide dst count).Counts 0 0 := by
  unfold rotateLeft
  split
  · exact counts_instr _
  · exact (counts_instr _).next fun _ => counts_instr _

lemma counts_constant (dst : Nat) : (constant type dst imm).Counts 0 0 := by
  unfold constant
  split
  · exact counts_instr _
  · split <;> exact counts_instr _
  · exact counts_unsupported

/-- Evaluating the tree yields a transfer for each of its nodes that passes control on, and takes
apart its operations that the processor lacks. -/
def Counted (p : Plan) (n : Node) : Prop :=
  ∀ held level depth, (p.eval held level depth n).Counts n.transfers (n.count p.cpu.lacks)

section Operands

variable (hchildren : ∀ c ∈ children, p.Counted c)

include hchildren

lemma counts_evalFirst {t : DataType} (htypes : children.map Node.type = [t]) :
    (p.evalFirst held level depth children).Counts
      (Node.countOf (fun op _ => op.transfers) children) (Node.countOf p.cpu.lacks children) := by
  obtain ⟨a, rfl, -⟩ := map_type_eq_singleton_iff.mp htypes
  exact hchildren a (by simp) held level depth

lemma counts_evalPair {t u : DataType} (htypes : children.map Node.type = [t, u]) :
    (p.evalPair held level depth children).Counts
      (Node.countOf (fun op _ => op.transfers) children) (Node.countOf p.cpu.lacks children) := by
  obtain ⟨a, b, rfl, -, -⟩ := map_type_eq_pair_iff.mp htypes
  exact (hchildren a (by simp) held level depth).bind fun lhs =>
    (hchildren b (by simp) (held ++ [lhs]) level (depth + 1)).before fun _ => counts_pure _

lemma counts_evalArguments (j : Nat) :
    (p.evalArguments held level depth j children).Counts
      (Node.countOf (fun op _ => op.transfers) children) (Node.countOf p.cpu.lacks children) := by
  induction children generalizing j with
  | nil => exact counts_pure ()
  | cons n ns ih =>
    rw [List.forall_mem_cons] at hchildren
    exact (hchildren.1 held (level + 1) depth).bind fun _ =>
      (counts_instr _).next fun _ => ih hchildren.2 (j + 1)

/-- A call, and what is done with its result. -/
lemma counts_call {α : Type} {f : Option Reg → Lowering α} (hf : ∀ r, (f r).Counts 0 0) :
    (do
      let c ← p.beginCall type imm (children.map Node.type) depth
      p.evalArguments held level depth 0 children
      let r ← p.endCall held level c
      f r).Counts (Node.node .call type imm children).transfers
        ((Node.node .call type imm children).count p.cpu.lacks) := by
  have htransfers : (Node.node .call type imm children).transfers =
      Node.countOf (fun op _ => op.transfers) children + 1 := Nat.add_comm _ _
  have hlacks : (Node.node .call type imm children).count p.cpu.lacks =
      Node.countOf p.cpu.lacks children + 0 := Node.count_of_not rfl
  rw [htransfers, hlacks]
  refine (counts_beginCall _).next fun c => (counts_evalArguments hchildren 0).bind fun _ => ?_
  exact (counts_endCall c).before hf

/-- A node with an instruction of its own behind its operands. -/
lemma counted_of_ne_call (hop : op ≠ .call)
    (haccepts : op.Accepts type (children.map Node.type)) :
    p.Counted (.node op type imm children) := by
  intro held level depth
  -- A node that is no transfer and lacks no instruction counts what its operands count.
  have hcount {x : Lowering Unit} (htransfers : op.transfers = false)
      (hlacks : p.cpu.lacks op type = false)
      (hx : x.Counts (Node.countOf (fun op _ => op.transfers) children)
        (Node.countOf p.cpu.lacks children)) :
      x.Counts (Node.node op type imm children).transfers
        ((Node.node op type imm children).count p.cpu.lacks) := by
    rwa [Node.transfers, Node.count_of_not htransfers, Node.count_of_not hlacks]
  obtain ⟨own, hown, heval⟩ := p.exists_own held level depth type imm children hop
  rw [heval]
  refine counts_register.next fun _ => ?_
  suffices hcounts : own.Counts (Node.node op type imm children).transfers
      ((Node.node op type imm children).count p.cpu.lacks) from
    hcounts.before fun _ => counts_pure _
  have htransfers {vop : VectorOp} (hvop : op.vectorOp? = some vop) : op.transfers = false := by
    cases op <;> first | rfl | cases hvop
  -- Only an operation on lanes can be one that the processor lacks.
  have hlacks (hlane : op.vectorOp?.isSome → type.lane? = none) : p.cpu.lacks op type = false := by
    unfold Cpu.lacks
    split
    · rename_i hvop hl
      rw [hlane (Option.isSome_of_eq_some hvop)] at hl
      cases hl
    · rfl
  cases hown with
  | load hop' =>
    subst hop'
    obtain rfl : children = [] := by simpa using haccepts.2
    exact hcount rfl rfl (counts_instr _)
  | const hop' =>
    subst hop'
    obtain rfl : children = [] := by simpa using haccepts.2
    exact hcount rfl rfl (counts_constant _)
  | loadIndirect hop' | neg hop' | sqrt hop' =>
    subst hop'
    exact hcount rfl rfl ((counts_evalFirst hchildren haccepts.2).before fun _ => counts_instr _)
  | rol hop' =>
    subst hop'
    exact hcount rfl rfl ((counts_evalPair hchildren haccepts.2).before fun _ =>
      counts_rotateLeft _ _ _)
  | @vector l vop htype hvop =>
    subst htype
    have hlacks : p.cpu.lacks op (.vector l) = !p.cpu.supports vop l := by
      rw [Cpu.lacks, hvop]
      rfl
    rw [Node.transfers, Node.count_of_not (htransfers hvop), Node.count, hlacks, Nat.add_comm,
      ← Nat.add_zero (Node.countOf _ _)]
    refine (counts_checkVector _ _).next fun _ => ?_
    exact (counts_evalPair hchildren (haccepts.of_vectorOp? hvop)).bind fun _ =>
      counts_combineVectors _ _ _
  | floating hfloating hvop =>
    exact hcount (htransfers hvop) (hlacks fun _ => DataType.lane?_of_isFloating hfloating)
      ((counts_evalPair hchildren (haccepts.of_vectorOp? hvop)).before fun _ => counts_instr _)
  | integer hiop hscalar =>
    have htransfers : op.transfers = false := by
      cases op <;> first | rfl | cases hiop
    obtain ⟨-, right, htypes, -⟩ := haccepts.of_ofOpcode? hiop hscalar
    exact hcount htransfers (hlacks fun hvop => (hscalar hvop).1)
      ((counts_evalPair hchildren htypes).before fun _ => counts_instr _)
  | noParameter | noValue => exact counts_unsupported

end Operands

/-- The transfers of a well-typed tree, and its operations that are taken apart. -/
theorem counts_eval (hn : n.WellTyped s) : p.Counted n := by
  induction hn with
  | @node op type imm children accepts _ _ _ _ ih =>
    by_cases hop : op = .call
    · subst hop
      intro held level depth
      rw [eval, if_pos rfl]
      refine counts_call ih fun r => ?_
      cases r with
      | none => exact counts_unsupported
      | some r => exact counts_pure r
    · exact counted_of_ne_call ih hop accepts

/-! ### Methods -/

lemma counts_target : (p.target op type imm).Counts 0 0 := by
  unfold target
  split
  · split
    · exact counts_pure _
    · exact counts_unsupported
  · exact counts_unsupported

/-- The jump of a return to the end of the method, which the last tree does without. -/
lemma counts_return (last : Bool) : (if !last then Lowering.op (.transfer (.jump p.epilogue))
    else Pure.pure ⟨⟩).Counts (!last).toNat 0 := by
  cases last with
  | true => exact counts_pure _
  | false => exact counts_transfer _

/-- A tree of a block.  A return yields no transfer if it is the last tree of the method. -/
lemma exists_counts_treetop (hn : n.WellTyped s) (last : Bool) :
    ∃ t, (p.treetop last n).Counts t (n.count p.cpu.lacks) ∧
      t + (last && n.op == .ret).toNat = n.transfers := by
  have hwhole := hn
  cases hn with
  | @node op type imm children accepts _ _ _ operands =>
    have hchildren : ∀ c ∈ children, p.Counted c := fun c hc => counts_eval (operands c hc)
    have hlacks (hvop : op.vectorOp? = none) :
        (Node.node op type imm children).count p.cpu.lacks =
          Node.countOf p.cpu.lacks children + 0 :=
      Node.count_of_not (by rw [Cpu.lacks, hvop])
    -- Of the trees that pass control on only returns are ever left without a transfer.
    have hone (htransfers : op.transfers) (hret : op ≠ .ret) :
        Node.countOf (fun op _ => op.transfers) children + 1 + (last && op == .ret).toNat =
          (Node.node op type imm children).transfers := by
      rw [Node.transfers, Node.count, htransfers, beq_false_of_ne hret, Bool.and_false,
        Bool.toNat_false, Bool.toNat_true, Nat.add_zero, Nat.add_comm]
    unfold treetop
    simp only [Node.op, Node.type, Node.imm, Node.children]
    split
    case h_1 =>
      refine ⟨Node.countOf (fun op _ => op.transfers) children, ?_, ?_⟩
      · rw [hlacks rfl]
        exact (counts_evalPair hchildren accepts.2).before fun _ => counts_instr _
      · rw [Node.transfers, Node.count_of_not rfl]
        cases last <;> rfl
    case h_2 =>
      have hreturn : Node.countOf (fun op _ => op.transfers) children + (!last).toNat +
          (last && Opcode.ret == .ret).toNat =
            (Node.node .ret type imm children).transfers := by
        rw [Node.transfers, Node.count, Nat.add_assoc, Nat.add_comm]
        cases last <;> rfl
      refine ⟨_, ?_, hreturn⟩
      rw [hlacks rfl]
      rcases accepts with ⟨-, hempty⟩ | ⟨-, htypes⟩
      · obtain rfl : children = [] := by simpa using hempty
        simp only [Node.countOf, Nat.zero_add]
        exact counts_return last
      · have hvalue := @counts_evalFirst p [] 0 0 _ hchildren _ htypes
        obtain ⟨a, rfl, -⟩ := map_type_eq_singleton_iff.mp htypes
        exact hvalue.bind fun _ => (counts_instr _).next fun _ => counts_return last
    case h_3 =>
      obtain rfl : children = [] := by simpa using accepts.2
      refine ⟨_, ?_, hone rfl (by simp)⟩
      rw [hlacks rfl]
      exact counts_target.next fun _ => counts_transfer _
    case h_4 c =>
      refine ⟨_, ?_, hone rfl (by simp)⟩
      rw [hlacks rfl]
      exact (counts_evalPair hchildren accepts.2).bind fun _ => (counts_instr _).next fun _ =>
        counts_target.next fun _ => counts_transfer _
    case h_5 =>
      refine ⟨_, counts_call hchildren fun _ => counts_pure _, ?_⟩
      cases last <;> rfl
    case h_6 hstore hret hgoto hifcmp hcall =>
      refine ⟨_, (counts_eval hwhole [] 0 0).before fun _ => counts_pure _, ?_⟩
      rw [beq_false_of_ne hret, Bool.and_false]
      rfl

/-- The trees of a block, which is the final one or not. -/
lemma exists_counts_trees {ns : List Node} (hns : ∀ n ∈ ns, n.WellTyped s) (final : Bool) :
    ∃ t, (p.trees final ns).Counts t (Node.countOf p.cpu.lacks ns) ∧
      t + (final && Node.lastReturns ns).toNat = Node.countOf (fun op _ => op.transfers) ns := by
  induction ns with
  | nil => exact ⟨0, counts_pure _, by cases final <;> rfl⟩
  | cons n ns ih =>
    rw [List.forall_mem_cons] at hns
    obtain ⟨t, hn, ht⟩ := @exists_counts_treetop p _ n hns.1 (final && ns.isEmpty)
    obtain ⟨u, hrest, hu⟩ := ih hns.2
    refine ⟨t + u, hn.bind fun _ => hrest, ?_⟩
    rw [Node.countOf, ← hu]
    change _ = n.transfers + _
    rw [← ht]
    cases ns with
    | nil => simp [Node.lastReturns, Nat.add_right_comm]
    | cons n' ns => simp [Node.lastReturns, Nat.add_assoc]

lemma exists_counts_blocksFrom {bs : List Block} (hbs : ∀ b ∈ bs, ∀ n ∈ b.trees, n.WellTyped s)
    (first : Nat) :
    ∃ t, (p.blocksFrom first bs).Counts t (Node.countOf p.cpu.lacks (bs.flatMap Block.trees)) ∧
      t + (bs.getLast?.any fun b => Node.lastReturns b.trees).toNat =
        Node.countOf (fun op _ => op.transfers) (bs.flatMap Block.trees) := by
  induction bs generalizing first with
  | nil => exact ⟨0, counts_pure _, rfl⟩
  | cons b bs ih =>
    rw [List.forall_mem_cons] at hbs
    obtain ⟨t, hb, ht⟩ := @exists_counts_trees p _ b.trees hbs.1 bs.isEmpty
    obtain ⟨u, hrest, hu⟩ := ih hbs.2 (first + 1)
    refine ⟨t + u, ?_, ?_⟩
    · rw [List.flatMap_cons, Node.countOf_append]
      exact (counts_bind first).next fun _ => hb.bind fun _ => hrest
    · rw [List.flatMap_cons, Node.countOf_append, ← ht, ← hu]
      cases bs with
      | nil => simp [Nat.add_right_comm]
      | cons b' bs => simp [Nat.add_assoc]

end Plan

/-- A method that is lowered has a transfer for each node that passes control on, but for a return
at its end, and its operations that the processor lacks are taken apart. -/
lemma Method.counts_lower {m : Method} {cpu : Cpu} {fallback : VectorFallback} {e : Source.Expr}
    (h : ofExpr e = .ok m) (hlower : (m.lower cpu fallback).result = .ok ()) :
    (m.lower cpu fallback).ops.countP Op.isTransfer + m.endsInReturn.toNat =
        m.count (fun op _ => op.transfers) ∧
      (m.lower cpu fallback).scalarized = m.count cpu.lacks := by
  cases hassign : cpu.isa.convention.assignAll m.params with
  | none => simp [lower, hassign, Lowering.fail] at hlower
  | some arguments =>
    have hparams := Isa.length_le_of_assignAll hassign
    have htyped := (wellTyped_of_ofExpr h (by omega)).1.trees_typed
    obtain ⟨t, hblocks, ht⟩ :=
      @Plan.exists_counts_blocksFrom (m.plan cpu fallback) _ m.blocks htyped 0
    have hall : (m.lower cpu fallback).Counts t (m.count cpu.lacks) := by
      rw [lower_eq hassign]
      refine (Lowering.counts_instr _).next fun _ => ?_
      refine (Lowering.counts_forM fun _ => Lowering.counts_instr _).next fun _ => ?_
      exact hblocks.before fun _ =>
        (Lowering.counts_bind _).next fun _ => Lowering.counts_instr _
    obtain ⟨htransfers, hscalarized⟩ := hall () hlower
    exact ⟨htransfers ▸ ht, hscalarized⟩

/-! ## Placing -/

namespace Placement

open Assembler (Made Extends Filled)

variable {p q : Placement} {limit : Nat} {o : Op} {ops : List Op} {ps : List Piece}

/-- What placing operations leads to: pieces behind those that are there, which hold jumps and calls
of these forms once they are filled, and the counters with these forms added. -/
structure Accounts (p q : Placement) (ps qs : List Piece) (forms : List BranchForm) : Prop where
  made : q.asm.Made (ps ++ qs)
  goes_on : p.asm.Extends q.asm
  reads : ∀ d c, q.asm.Extends d → d.Filled p.asm.offset qs c → d.isa.Reads c forms
  direct : q.direct = p.direct + forms.count .direct
  indirect : q.indirect = p.indirect + forms.count .indirect

lemma exists_accounts_place (hmade : p.asm.Made ps) (h : p.place limit o = .ok q) :
    ∃ qs forms, p.Accounts q ps qs forms ∧ forms.length = o.isTransfer.toNat := by
  cases o with
  | instr i =>
    obtain ⟨hnone, rfl⟩ := step_eq_ok_iff.mp h
    refine ⟨_, [], ⟨hmade.append _, Assembler.extends_append _ _, fun d c hd hfilled => ?_, rfl,
      rfl⟩, rfl⟩
    cases hfilled with
    | bytes hnil =>
      cases hnil
      rw [List.append_nil, hd.isa]
      exact Isa.reads_emission hnone
  | bind label =>
    obtain ⟨hnone, rfl⟩ := step_eq_ok_iff.mp h
    cases hbind : p.asm.bind label with
    | error fault => simp [Assembler.step, hbind] at hnone
    | ok b =>
      have hstep : (p.asm.step (.bind label)).1 = b := by rw [Assembler.step, hbind]
      rw [hstep]
      refine ⟨[], [], ⟨?_, Assembler.extends_bind hbind, fun d c hd hfilled => ?_, rfl, rfl⟩, rfl⟩
      · rw [List.append_nil]
        exact Assembler.made_bind hmade hbind
      · cases hfilled
        exact Isa.reads_nil _
  | transfer t =>
    obtain ⟨form, hform, h⟩ := Except.bind_eq_ok_iff.mp h
    obtain ⟨hnone, rfl⟩ := step_eq_ok_iff.mp h
    rw [asm_count] at hnone
    obtain ⟨qs, hmade', hextends, hencodes⟩ := Assembler.exists_made_transfer hmade hnone
    rw [asm_count]
    refine ⟨qs, [form], ⟨hmade', hextends,
      fun d c hd hfilled => (hencodes d c hd hfilled).reads, ?_, ?_⟩, rfl⟩ <;>
      cases form <;> rfl

/-- Placing operations puts a jump or call behind the code for each transfer among them, and counts
them by their forms. -/
lemma exists_accounts_foldlM (hmade : p.asm.Made ps) (h : ops.foldlM (place limit) p = .ok q) :
    ∃ qs forms, p.Accounts q ps qs forms ∧ forms.length = ops.countP Op.isTransfer := by
  induction ops generalizing p ps with
  | nil =>
    cases h
    refine ⟨[], [], ⟨by rwa [List.append_nil], .refl _, fun d c _ hfilled => ?_, rfl, rfl⟩, rfl⟩
    cases hfilled
    exact Isa.reads_nil _
  | cons o ops ih =>
    rw [List.foldlM_cons] at h
    obtain ⟨next, hplace, h⟩ := Except.bind_eq_ok_iff.mp h
    obtain ⟨qs, forms, hnext, hlength⟩ := exists_accounts_place hmade hplace
    obtain ⟨rs, forms', hrest, hlength'⟩ := ih hnext.made h
    refine ⟨qs ++ rs, forms ++ forms', ⟨?_, hnext.goes_on.trans hrest.goes_on, ?_, ?_, ?_⟩, ?_⟩
    · rw [← List.append_assoc]
      exact hrest.made
    · intro d c hd hfilled
      have hextends := hrest.goes_on.trans hd
      have hisa : d.isa = p.asm.isa := hextends.isa.trans hnext.goes_on.isa
      have hoffset : next.asm.offset = p.asm.offset + (Piece.code d.isa qs).length := by
        rw [hnext.made.offset_eq, hmade.offset_eq, hisa, hnext.goes_on.isa, Piece.code_append,
          List.length_append]
      obtain ⟨c₁, c₂, rfl, hfirst, hsecond⟩ := Assembler.filled_append hfilled
      rw [← hoffset] at hsecond
      exact (hnext.reads d c₁ hextends hfirst).append (hrest.reads d c₂ hd hsecond)
    · rw [hrest.direct, hnext.direct, List.count_append, Nat.add_assoc]
    · rw [hrest.indirect, hnext.indirect, List.count_append, Nat.add_assoc]
    · rw [List.length_append, hlength, hlength', List.countP_cons, Nat.add_comm]
      cases o.isTransfer <;> rfl

end Placement

/-! ## The counters -/

namespace Method

variable {text : String} {m : Method} {cpu : Cpu} {base : UInt64} {options : Options}
  {code : MachineCode}

lemma count_direct_add_count_indirect (forms : List BranchForm) :
    forms.count .direct + forms.count .indirect = forms.length := by
  induction forms with
  | nil => rfl
  | cons form forms ih => cases form <;> simp <;> omega

/-- **The counters describe the trees and the bytes.**  The code of a method that is read and
assembled counts, between direct and indirect ones, a transfer for every node of the trees that
passes control on to another place, calls within calls among them; only a return that is the last
tree of the last block goes without.  The bytes are instructions from the first to the last, and
among them as many jumps and calls as are counted hold a distance, and as many as are counted go
through the scratch register.  And the operations that are counted as taken apart are those of the
lane-wise nodes that the processor has no instruction for. -/
theorem counters_of_assemble (hparse : parse text = .ok m)
    (hassemble : m.assemble cpu base options = .ok code) :
    code.direct + code.indirect + m.endsInReturn.toNat = m.count (fun op _ => op.transfers) ∧
      (∃ forms, cpu.isa.forms? code.bytes.toList = some forms ∧
        code.direct = forms.count .direct ∧ code.indirect = forms.count .indirect) ∧
      code.scalarized = m.count cpu.lacks := by
  obtain ⟨e, -, hm⟩ := Except.bind_eq_ok_iff.mp hparse
  obtain ⟨p, hplaced, hfinish, hcode⟩ :=
    exists_placed_of_codeAt (assemble_eq_ok_iff.mp hassemble).1
  obtain ⟨htransfers, hscalarized⟩ := counts_lower hm hplaced.lowered
  obtain ⟨ps, forms, haccounts, hlength⟩ :=
    Placement.exists_accounts_foldlM (Placement.made_start _ _ _) hplaced.placed
  have hread := haccounts.reads p.asm code.bytes.toList (.refl _)
    (Assembler.filled_of_finish haccounts.made hfinish)
  have hisa : p.asm.isa = cpu.isa := haccounts.goes_on.isa
  rw [hisa] at hread
  have hdirect : code.direct = forms.count .direct := by
    rw [hcode]
    exact haccounts.direct.trans (Nat.zero_add _)
  have hindirect : code.indirect = forms.count .indirect := by
    rw [hcode]
    exact haccounts.indirect.trans (Nat.zero_add _)
  refine ⟨?_, ⟨forms, hread.forms?_eq, hdirect, hindirect⟩, ?_⟩
  · rw [hdirect, hindirect, count_direct_add_count_indirect, hlength, htransfers]
  · rw [hcode]
    exact hscalarized

/-- Far away from what it calls, the code of `loop` has a direct jump back, an indirect call, and no
jump for its return.  That of `product` works on one lane after the other. -/
theorem counters_of_assemble_loopText :
    parse loopText = .ok loop ∧ parse productText = .ok product ∧
      (∃ code, loop.assemble (.baseline .x64) 0x700000000000 .default = .ok code ∧
        code.direct + code.indirect + 1 = 3 ∧
        ∃ forms, Isa.x64.forms? code.bytes.toList = some forms ∧ forms.count .direct = 1 ∧
          forms.count .indirect = 1) ∧
      ∃ code, product.assemble (.baseline .x64) 0x10000 ⟨.scalarize, 0, 4096⟩ = .ok code ∧
        code.scalarized = 1 := by
  have hloop : (loop.assemble (.baseline .x64) 0x700000000000 .default).map
      (fun code => (code.direct, code.indirect)) = .ok (1, 1) := by
    decide +kernel
  have hproduct : (product.assemble (.baseline .x64) 0x10000 ⟨.scalarize, 0, 4096⟩).isOk := by
    decide +kernel
  obtain ⟨code, hcode, hcounts⟩ := Except.map_eq_ok_iff.mp hloop
  obtain ⟨hdirect, hindirect⟩ := Prod.mk.injEq .. ▸ hcounts
  obtain ⟨htransfers, ⟨forms, hforms, hdirect', hindirect'⟩, -⟩ :=
    counters_of_assemble parse_loopText hcode
  refine ⟨parse_loopText, parse_productText, ⟨code, hcode, htransfers, forms, hforms,
    hdirect'.symm.trans hdirect, hindirect'.symm.trans hindirect⟩, ?_⟩
  cases hproduct' : product.assemble (.baseline .x64) 0x10000 ⟨.scalarize, 0, 4096⟩ with
  | error e => simp [hproduct', Except.isOk, Except.toBool] at hproduct
  | ok code => exact ⟨code, rfl, (counters_of_assemble parse_productText hproduct').2.2⟩

end Method

end TreeCode
