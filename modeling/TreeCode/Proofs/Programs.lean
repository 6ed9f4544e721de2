import Mathlib.Tactic.Common
import TreeCode.Flow
import TreeCode.Proofs.Treetops

/-!
# Programs

The program of a method is its prologue, its blocks one after the other, each behind its label, and
its epilogue.  `Program.Stands` says where a place between the trees of a method is in the program.
-/

namespace TreeCode

/-- How a method is lowered. -/
def Method.plan (m : Method) (cpu : Cpu) (fallback : VectorFallback) : Plan :=
  ⟨cpu, fallback, Frame.plan m cpu.isa.deepest, m.blocks.length⟩

/-- The operations of a method and what is agreed on at its calls. -/
def Method.program (m : Method) (cpu : Cpu) (fallback : VectorFallback) : Program :=
  ⟨(m.lower cpu fallback).ops, m.callSites⟩

/-- The calls of some trees of a block. -/
def Node.sitesOf (ns : List Node) : List CallSite := ns.flatMap Node.treetopSites

namespace Plan

open Lowering hiding pure bind

variable {p : Plan} {s : Scope} {final : Bool} {index : Nat} {n : Node} {ns : List Node}
  {b : Block} {bs : List Block} {ops : List Op} {u : Unit}

/-- Putting the arguments of a method into their slots. -/
def spillOps (p : Plan) (arguments : List (Argument × DataType)) : List Op :=
  arguments.zipIdx.map fun ((argument, type), i) =>
    .instr (.spillArg argument (.slot type) (frameOffset (p.frame.param i)))

/-- The end of a method. -/
def ending (p : Plan) : List Op := [.bind p.epilogue, .instr .epilogue]

lemma yields_trees_cons_iff : (p.trees final (n :: ns)).Yields ops u ↔
    ∃ o₁ o₂, (p.treetop (final && ns.isEmpty) n).Yields o₁ () ∧ (p.trees final ns).Yields o₂ () ∧
      ops = o₁ ++ o₂ := by
  rw [trees, yields_bind_iff]
  constructor
  · rintro ⟨o₁, _, o₂, h₁, h₂, rfl⟩
    exact ⟨o₁, o₂, h₁, h₂, rfl⟩
  · rintro ⟨o₁, o₂, h₁, h₂, rfl⟩
    exact ⟨o₁, (), o₂, h₁, h₂, rfl⟩

lemma yields_blocksFrom_cons_iff : (p.blocksFrom index (b :: bs)).Yields ops u ↔
    ∃ o₁ o₂, (p.trees bs.isEmpty b.trees).Yields o₁ () ∧
      (p.blocksFrom (index + 1) bs).Yields o₂ () ∧ ops = .bind index :: (o₁ ++ o₂) := by
  simp only [blocksFrom, yields_bind_iff, yields_op_iff]
  constructor
  · rintro ⟨_, _, _, rfl, ⟨o₁, _, o₂, h₁, h₂, rfl⟩, rfl⟩
    exact ⟨o₁, o₂, h₁, h₂, rfl⟩
  · rintro ⟨o₁, o₂, h₁, h₂, rfl⟩
    exact ⟨_, (), _, rfl, ⟨o₁, (), o₂, h₁, h₂, rfl⟩, rfl⟩

/-- Operations that make so many calls and bind no label. -/
structure Plain (ops : List Op) (sites : List CallSite) : Prop where
  calls_eq : ops.countP Op.isCall = sites.length
  no_label : ∀ label, .bind label ∉ ops

lemma Plain.append {o₁ o₂ : List Op} {s₁ s₂ : List CallSite} (h₁ : Plain o₁ s₁)
    (h₂ : Plain o₂ s₂) : Plain (o₁ ++ o₂) (s₁ ++ s₂) where
  calls_eq := by rw [List.countP_append, List.length_append, h₁.calls_eq, h₂.calls_eq]
  no_label label hmem := (List.mem_append.mp hmem).elim (h₁.no_label label) (h₂.no_label label)

lemma plain_of_straight {sites : List CallSite} (h : Straight ops sites) :
    Plain ops sites where
  calls_eq := h.calls
  no_label label hmem := by simpa [Op.isStraight] using h.straight _ hmem

lemma plain_of_treetop {last : Bool} (hn : n.WellTyped s) (h : (p.treetop last n).Yields ops u) :
    Plain ops n.treetopSites := by
  obtain ⟨op, type, imm, children⟩ := n
  obtain ⟨body, tail, hplaced, rfl⟩ := placed_of_treetop h
  obtain ⟨hcalls, hlabels⟩ := hplaced.tail_plain
  have htail : Plain tail [] := ⟨hcalls, hlabels⟩
  simpa using (plain_of_straight (hplaced.sited hn).straight).append htail

lemma plain_of_trees (hns : ∀ n ∈ ns, n.WellTyped s) (h : (p.trees final ns).Yields ops u) :
    Plain ops (Node.sitesOf ns) := by
  induction ns generalizing ops with
  | nil =>
    obtain ⟨rfl, -⟩ := yields_pure_iff.mp h
    exact ⟨rfl, by simp⟩
  | cons n ns ih =>
    rw [List.forall_mem_cons] at hns
    obtain ⟨o₁, o₂, h₁, h₂, rfl⟩ := yields_trees_cons_iff.mp h
    exact (plain_of_treetop hns.1 h₁).append (ih hns.2 h₂)

end Plan

/-- The operations of a method. -/
lemma Method.ops_of_lower {m : Method} {cpu : Cpu} {fallback : VectorFallback} {ops : List Op}
    {u : Unit} (h : (m.lower cpu fallback).Yields ops u) :
    ∃ arguments blocks, cpu.isa.convention.assignAll m.params = some arguments ∧
      ((m.plan cpu fallback).blocksFrom 0 m.blocks).Yields blocks () ∧
      ops = .instr (.prologue (UInt32.ofNat (m.plan cpu fallback).frame.size)) ::
        ((m.plan cpu fallback).spillOps (arguments.zip m.params) ++
          (blocks ++ (m.plan cpu fallback).ending)) := by
  unfold lower at h
  split at h
  · exact (Lowering.not_yields_fail h).elim
  · rename_i arguments hassign
    obtain ⟨_, _, _, hprologue, h₁, rfl⟩ := Lowering.yields_bind_iff.mp h
    obtain ⟨spills, _, _, hspill, h₂, rfl⟩ := Lowering.yields_bind_iff.mp h₁
    obtain ⟨blocks, _, _, hblocks, h₃, rfl⟩ := Lowering.yields_bind_iff.mp h₂
    obtain ⟨_, _, _, hbind, hend, rfl⟩ := Lowering.yields_bind_iff.mp h₃
    obtain rfl := Lowering.yields_instr_iff.mp hprologue
    obtain rfl := Lowering.yields_op_iff.mp hbind
    obtain rfl := Lowering.yields_instr_iff.mp hend
    have hspills : spills = (m.plan cpu fallback).spillOps (arguments.zip m.params) :=
      (Lowering.yields_forM_iff fun _ => rfl).mp hspill
    exact ⟨arguments, blocks, hassign, hblocks, by rw [hspills]; rfl⟩

namespace Program

variable {P : Program} {p : Plan} {m : Method} {pos : Position} {b : Block}
  {front trees blocks : List Op} {before : List CallSite}

/-- A place in a method and in its program: what stands in front of it, and what comes from there
on. -/
structure Stands (P : Program) (p : Plan) (m : Method) (pos : Position) (b : Block)
    (front trees blocks : List Op) (before : List CallSite) : Prop where
  block_eq : m.blocks[pos.block]? = some b
  trees_eq : (p.trees (m.blocks.drop (pos.block + 1)).isEmpty (b.trees.drop pos.tree)).Yields
    trees ()
  blocks_eq : (p.blocksFrom (pos.block + 1) (m.blocks.drop (pos.block + 1))).Yields blocks ()
  ops_eq : P.ops = front ++ (trees ++ (blocks ++ p.ending))
  sites_eq : P.sites = before ++ (Node.sitesOf (b.trees.drop pos.tree) ++
    Node.sitesOf ((m.blocks.drop (pos.block + 1)).flatMap Block.trees))
  calls_eq : front.countP Op.isCall = before.length
  label_eq : front.reverse.findSome? Op.label? = some pos.block
  labels_le : ∀ label, .bind label ∈ front → label ≤ pos.block

/-- A label is bound where it stands for the first time. -/
lemma place?_eq {label : Nat} {back : List Op} (hops : P.ops = front ++ .bind label :: back)
    (hfront : .bind label ∉ front) : P.place? label = some front.length := by
  rw [place?, hops, List.findIdx?_append, List.findIdx?_eq_none_iff.mpr]
  · simp [List.findIdx?_cons]
  · intro o ho
    rw [beq_eq_false_iff_ne]
    rintro rfl
    exact hfront ho

namespace Stands

/-- The block that a place belongs to. -/
lemma blockAt_eq (h : P.Stands p m pos b front trees blocks before) :
    P.blockAt front.length = some pos.block := by
  rw [blockAt, h.ops_eq, List.take_left', h.label_eq]
  rfl

/-- Behind some operations of the block. -/
lemma label_append {own : List Op} {sites : List CallSite} (hown : Plan.Plain own sites)
    (h : front.reverse.findSome? Op.label? = some pos.block) :
    (front ++ own).reverse.findSome? Op.label? = some pos.block := by
  have hnone : own.reverse.findSome? Op.label? = none := by
    rw [List.findSome?_eq_none_iff]
    intro o ho
    cases o <;> first | rfl | exact (hown.no_label _ (List.mem_reverse.mp ho)).elim
  rw [List.reverse_append, List.findSome?_append, hnone, h]
  rfl

/-- One tree on. -/
lemma next {n : Node} {s : Scope} (h : P.Stands p m pos b front trees blocks before)
    (hn : b.trees[pos.tree]? = some n) (htyped : n.WellTyped s) :
    ∃ own rest, (p.treetop ((m.blocks.drop (pos.block + 1)).isEmpty &&
        (b.trees.drop (pos.tree + 1)).isEmpty) n).Yields own () ∧ trees = own ++ rest ∧
      P.Stands p m pos.next b (front ++ own) rest blocks (before ++ n.treetopSites) := by
  have hdrop : b.trees.drop pos.tree = n :: b.trees.drop (pos.tree + 1) :=
    List.drop_eq_getElem?_toList_append .. |>.trans (by rw [hn]; rfl)
  have htrees := h.trees_eq
  have hsites := h.sites_eq
  rw [hdrop] at htrees hsites
  obtain ⟨own, rest, hown, hrest, rfl⟩ := Plan.yields_trees_cons_iff.mp htrees
  have hplain := Plan.plain_of_treetop htyped hown
  refine ⟨own, rest, hown, rfl, h.block_eq, hrest, h.blocks_eq, ?_, ?_, ?_, ?_, ?_⟩
  · simp [h.ops_eq]
  · simp [hsites, Node.sitesOf, Position.next]
  · simp [h.calls_eq, hplain.calls_eq]
  · exact label_append hplain h.label_eq
  · intro label hmem
    exact h.labels_le label ((List.mem_append.mp hmem).resolve_right (hplain.no_label label))

/-- Behind all trees of the block. -/
lemma finish {s : Scope} (h : P.Stands p m pos b front trees blocks before)
    (htyped : ∀ n ∈ b.trees, n.WellTyped s) :
    P.Stands p m ⟨pos.block, b.trees.length⟩ b (front ++ trees) [] blocks
      (before ++ Node.sitesOf (b.trees.drop pos.tree)) := by
  have hplain : Plan.Plain trees (Node.sitesOf (b.trees.drop pos.tree)) :=
    Plan.plain_of_trees (fun n hn => htyped n (List.mem_of_mem_drop hn)) h.trees_eq
  refine ⟨h.block_eq, ?_, h.blocks_eq, ?_, ?_, ?_, ?_, ?_⟩
  · rw [List.drop_length]
    exact Lowering.yields_pure_iff.mpr ⟨rfl, rfl⟩
  · simp [h.ops_eq]
  · simp [h.sites_eq, Node.sitesOf]
  · simp [h.calls_eq, hplain.calls_eq]
  · exact label_append hplain h.label_eq
  · intro label hmem
    exact h.labels_le label ((List.mem_append.mp hmem).resolve_right (hplain.no_label label))

/-- Behind the last tree of a block the next one begins. -/
lemma fall (h : P.Stands p m pos b front trees blocks before) (hend : b.trees.length ≤ pos.tree)
    (hnext : pos.block + 1 < m.blocks.length) :
    ∃ b' trees' blocks', P.ops = front ++ .bind (pos.block + 1) ::
        (trees' ++ (blocks' ++ p.ending)) ∧
      P.Stands p m (.start (pos.block + 1)) b' (front ++ [.bind (pos.block + 1)]) trees' blocks'
        before := by
  have hdrop : m.blocks.drop (pos.block + 1) =
      m.blocks[pos.block + 1] :: m.blocks.drop (pos.block + 1 + 1) :=
    List.drop_eq_getElem_cons hnext
  have htrees := h.trees_eq
  have hblocks := h.blocks_eq
  have hsites := h.sites_eq
  rw [List.drop_eq_nil_of_le hend] at htrees hsites
  rw [hdrop] at hblocks hsites
  obtain ⟨rfl, -⟩ := Lowering.yields_pure_iff.mp htrees
  obtain ⟨trees', blocks', htrees', hblocks', rfl⟩ := Plan.yields_blocksFrom_cons_iff.mp hblocks
  refine ⟨m.blocks[pos.block + 1], trees', blocks', by simp [h.ops_eq], ?_⟩
  refine ⟨List.getElem?_eq_getElem hnext, htrees', hblocks', ?_, ?_, ?_, ?_, ?_⟩
  · simp [h.ops_eq]
  · simpa only [Node.sitesOf, List.flatMap_cons, List.flatMap_append, List.flatMap_nil,
      List.nil_append, Position.start, List.drop_zero] using hsites
  · simp [h.calls_eq, Op.isCall]
  · rw [List.reverse_append]
    rfl
  · intro label hmem
    rcases List.mem_append.mp hmem with hmem | hmem
    · exact Nat.le_succ_of_le (h.labels_le label hmem)
    · obtain rfl : label = pos.block + 1 := by simpa using hmem
      exact Nat.le_refl _

/-- Every block stands behind its label. -/
lemma exists_start {s : Scope} {front₀ trees₀ blocks₀ : List Op} {b₀ : Block}
    (hops₀ : P.ops = front₀ ++ .bind 0 :: (trees₀ ++ (blocks₀ ++ p.ending)))
    (hfront₀ : ∀ label, .bind label ∉ front₀)
    (hentry : P.Stands p m (.start 0) b₀ (front₀ ++ [.bind 0]) trees₀ blocks₀ [])
    (htyped : ∀ b ∈ m.blocks, ∀ n ∈ b.trees, n.WellTyped s) {k : Nat} (hk : k < m.blocks.length) :
    ∃ b front trees blocks before,
      P.ops = front ++ .bind k :: (trees ++ (blocks ++ p.ending)) ∧
      P.Stands p m (.start k) b (front ++ [.bind k]) trees blocks before ∧
      P.place? k = some front.length := by
  induction k with
  | zero =>
    exact ⟨b₀, front₀, trees₀, blocks₀, [], hops₀, hentry, place?_eq hops₀ (hfront₀ 0)⟩
  | succ k ih =>
    obtain ⟨b, front, trees, blocks, before, hops, hstands, -⟩ := ih (by omega)
    have hfinish := hstands.finish (htyped b (List.mem_of_getElem? hstands.block_eq))
    obtain ⟨b', trees', blocks', hops', hstart⟩ := hfinish.fall (Nat.le_refl _) hk
    refine ⟨b', _, trees', blocks', _, hops', hstart, place?_eq hops' fun hmem => ?_⟩
    exact Nat.not_succ_le_self k (hfinish.labels_le _ hmem)

/-- The end of the method stands behind the label for it. -/
lemma place?_epilogue {s : Scope} (hp : p.blocks = m.blocks.length)
    (hlast : pos.block + 1 = m.blocks.length)
    (h : P.Stands p m pos b front trees blocks before) (htyped : ∀ n ∈ b.trees, n.WellTyped s) :
    P.place? p.epilogue = some (front ++ trees).length := by
  have hfinish := h.finish htyped
  have hblocks := h.blocks_eq
  rw [List.drop_eq_nil_of_le (Nat.le_of_eq hlast.symm)] at hblocks
  obtain ⟨rfl, -⟩ := Lowering.yields_pure_iff.mp hblocks
  have hops : P.ops = (front ++ trees) ++ .bind p.epilogue :: [.instr .epilogue] := by
    simp [h.ops_eq, Plan.ending]
  refine place?_eq hops fun hmem => ?_
  have hle := hfinish.labels_le _ hmem
  rw [Plan.epilogue, hp, ← hlast] at hle
  exact Nat.not_succ_le_self _ hle

end Stands

end Program

end TreeCode
