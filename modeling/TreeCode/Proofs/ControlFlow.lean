import Mathlib.Algebra.BigOperators.Group.Finset.Basic
import Mathlib.Data.Finset.Basic
import Mathlib.Logic.Relation
import Mathlib.Tactic.Common
import TreeCode.Flow

/-!
# The check of control flow decides

Whether the flow of control in a method is well formed is said here without a search: no tree
follows a return or goto in its block, the last block has one, and every block is connected with the
first by edges.  The search for the blocks that control can reach visits exactly those, because

* what is on the work or has been visited is connected with the first block, and
* a successor of a visited block is on the work or has been visited itself,

and it ends because every turn lowers the length of the work together with the number of successors
that may still be added to it.
-/

namespace TreeCode

/-! ## Edges -/

/-- The tree is a goto or compare-branch to the block. -/
def Node.BranchesTo (n : Node) (t : Nat) : Prop :=
  (n.op = .goto ∨ ∃ c, n.op = .ifcmp c) ∧ n.imm = .target t

/-- The tree is a return or a goto. -/
def Node.Ends (n : Node) : Prop :=
  n.op = .ret ∨ n.op = .goto ∧ ∃ t, n.imm = .target t

namespace Block

/-- The tree at an index of the block is a return or goto. -/
def EndsAt (b : Block) (i : Nat) : Prop := ∃ n, b.trees[i]? = some n ∧ n.Ends

/-- The return or goto at an index is the first one of the block. -/
def FirstEndsAt (b : Block) (i : Nat) : Prop := b.EndsAt i ∧ ∀ j < i, ¬ b.EndsAt j

/-- A tree of the block follows a return or goto. -/
def HasDeadCode (b : Block) : Prop := ∃ i, b.EndsAt i ∧ i + 1 < b.trees.length

end Block

namespace Method

/-- Control may go from one block to another: by a branch, or by running out of a block that has no
return or goto into the next one. -/
inductive Edge (m : Method) : Nat → Nat → Prop where
  | branch {i t : Nat} {b : Block} {n : Node} (hb : m.blocks[i]? = some b) (hn : n ∈ b.trees)
      (ht : n.BranchesTo t) : Edge m i t
  | fall {i : Nat} {b : Block} (hb : m.blocks[i]? = some b) (hends : ∀ j, ¬ b.EndsAt j) :
      Edge m i (i + 1)

/-- The block is connected with the first one. -/
def Reaches (m : Method) (k : Nat) : Prop := Relation.ReflTransGen m.Edge 0 k

/-- The flow of control in the method is well formed. -/
structure FlowsWell (m : Method) : Prop where
  noDeadCode : ∀ b ∈ m.blocks, ¬ b.HasDeadCode
  lastEnds : ∃ b i, m.blocks.getLast? = some b ∧ b.EndsAt i
  reaches : ∀ k < m.blocks.length, m.Reaches k

/-- The block at an index has dead code, or control leaves the method behind it. -/
inductive BlockFails (m : Method) (k : Nat) : FlowError → Prop where
  | deadCode {b : Block} {i : Nat} (hb : m.blocks[k]? = some b) (hfirst : b.FirstEndsAt i)
      (hmore : i + 1 < b.trees.length) : BlockFails m k (.deadCode (b.label k) (i + 1))
  | fallsOffEnd {b : Block} (hb : m.blocks[k]? = some b) (hlast : k + 1 = m.blocks.length)
      (hends : ∀ i, ¬ b.EndsAt i) : BlockFails m k (.fallsOffEnd (b.label k))

/-- What is reported of a method: the defect of the first block that has one inside, or else the
first block that is not connected with the first one. -/
inductive FlowFails (m : Method) : FlowError → Prop where
  | block {k : Nat} {e : FlowError} (hfails : m.BlockFails k e)
      (hbefore : ∀ j < k, ∀ e', ¬ m.BlockFails j e') : FlowFails m e
  | unreachable {k : Nat} {b : Block} (hblocks : ∀ j e', ¬ m.BlockFails j e')
      (hb : m.blocks[k]? = some b) (hreaches : ¬ m.Reaches k) (hbefore : ∀ j < k, m.Reaches j) :
      FlowFails m (.unreachable (b.label k))

end Method

namespace Node

variable {n : Node} {t : Nat}

lemma target?_eq_some_iff : n.target? = some t ↔ n.BranchesTo t := by
  obtain ⟨op, type, imm, children⟩ := n
  cases op <;> cases imm <;> simp [target?, BranchesTo, Node.op, Node.imm]

lemma endsBlock_eq_true_iff : n.endsBlock = true ↔ n.Ends := by
  obtain ⟨op, type, imm, children⟩ := n
  cases op <;> cases imm <;> simp [endsBlock, target?, Ends, Node.op, Node.imm]

end Node

namespace Block

variable {b : Block} {i : Nat}

lemma terminator?_eq_some_iff : b.terminator? = some i ↔ b.FirstEndsAt i := by
  rw [terminator?, List.findIdx?_eq_some_iff_getElem]
  constructor
  · rintro ⟨hi, hends, hbefore⟩
    refine ⟨⟨b.trees[i], List.getElem?_eq_getElem hi, Node.endsBlock_eq_true_iff.mp hends⟩, ?_⟩
    rintro j hj ⟨n, hn, hn'⟩
    obtain ⟨hj', rfl⟩ := List.getElem?_eq_some_iff.mp hn
    exact hbefore j hj (Node.endsBlock_eq_true_iff.mpr hn')
  · rintro ⟨⟨n, hn, hends⟩, hbefore⟩
    obtain ⟨hi, rfl⟩ := List.getElem?_eq_some_iff.mp hn
    refine ⟨hi, Node.endsBlock_eq_true_iff.mpr hends, fun j hj h => hbefore j hj ?_⟩
    exact ⟨_, List.getElem?_eq_getElem (by omega), Node.endsBlock_eq_true_iff.mp h⟩

lemma terminator?_eq_none_iff : b.terminator? = none ↔ ∀ i, ¬ b.EndsAt i := by
  rw [terminator?, List.findIdx?_eq_none_iff]
  constructor
  · rintro h i ⟨n, hn, hends⟩
    have := h n (List.mem_of_getElem? hn)
    rw [Node.endsBlock_eq_true_iff.mpr hends] at this
    simp at this
  · intro h n hn
    obtain ⟨i, hi⟩ := List.mem_iff_getElem?.mp hn
    by_contra hends
    exact h i ⟨n, hi, Node.endsBlock_eq_true_iff.mp (by simpa using hends)⟩

/-- A block that has dead code has it behind its first return or goto. -/
lemma HasDeadCode.exists_first (h : b.HasDeadCode) :
    ∃ i, b.FirstEndsAt i ∧ i + 1 < b.trees.length := by
  obtain ⟨i, hends, hmore⟩ := h
  cases ht : b.terminator? with
  | none => exact absurd hends (terminator?_eq_none_iff.mp ht i)
  | some t =>
    have hfirst := terminator?_eq_some_iff.mp ht
    have hle : t ≤ i := by
      by_contra hlt
      exact hfirst.2 i (by omega) hends
    exact ⟨t, hfirst, by omega⟩

end Block

namespace Method

variable {m : Method} {k : Nat} {e : FlowError}

lemma mem_successors_iff {i t : Nat} : t ∈ m.successors i ↔ m.Edge i t := by
  unfold successors
  constructor
  · intro h
    split at h
    · simp at h
    · rename_i b hb
      rcases List.mem_append.mp h with htarget | hfall
      · obtain ⟨n, hn, hn'⟩ := List.mem_filterMap.mp htarget
        exact .branch hb hn (Node.target?_eq_some_iff.mp hn')
      · split at hfall
        · simp at hfall
        · rename_i hnone
          obtain rfl := List.mem_singleton.mp hfall
          exact .fall hb (Block.terminator?_eq_none_iff.mp (by simpa using hnone))
  · intro h
    cases h with
    | branch hb hn ht =>
      simp only [hb, List.mem_append]
      exact .inl (List.mem_filterMap.mpr ⟨_, hn, Node.target?_eq_some_iff.mpr ht⟩)
    | fall hb hends => simp [hb, Block.terminator?_eq_none_iff.mpr hends]

/-! ## The search -/

/-- What the search keeps true: everything it has met is connected with the first block, and what
follows a visited block has been met. -/
structure Search.Sound (m : Method) (s : Search) : Prop where
  reaches : ∀ b, b ∈ s.work ∨ b ∈ s.reached → m.Reaches b
  first : 0 ∈ s.work ∨ 0 ∈ s.reached
  next : ∀ b ∈ s.reached, ∀ t, m.Edge b t → t ∈ s.work ∨ t ∈ s.reached

namespace Search

open Method

variable {s : Search}

lemma sound_start : Sound m ⟨[0], []⟩ where
  reaches b hb := by
    obtain rfl : b = 0 := by simpa using hb
    exact .refl
  first := by simp
  next := by simp

lemma Sound.visit (h : s.Sound m) : (m.visit s).Sound m := by
  obtain ⟨work, reached⟩ := s
  cases work with
  | nil => exact h
  | cons b work =>
    unfold Method.visit
    by_cases hmem : b ∈ reached
    · simp only [List.contains_iff_mem.mpr hmem, if_true]
      refine ⟨fun c hc => h.reaches c ?_, ?_, fun c hc t ht => ?_⟩
      · exact hc.imp_left (List.mem_cons_of_mem b)
      · rcases h.first with hfirst | hfirst
        · rcases List.mem_cons.mp hfirst with rfl | hwork
          · exact .inr hmem
          · exact .inl hwork
        · exact .inr hfirst
      · rcases h.next c hc t ht with hwork | hreached
        · rcases List.mem_cons.mp hwork with rfl | hwork
          · exact .inr hmem
          · exact .inl hwork
        · exact .inr hreached
    · have hmem' : reached.contains b = false := by simpa using hmem
      simp only [hmem', Bool.false_eq_true, if_false]
      have hb : m.Reaches b := h.reaches b (.inl (by simp))
      -- what is met of the successors of `b` is on the work now, or had been met before
      have hnew : ∀ t, m.Edge b t → t ∈ b :: reached ∨
          t ∈ (m.successors b).filter fun t => !(b :: reached).contains t := by
        intro t ht
        by_cases hold : t ∈ b :: reached
        · exact .inl hold
        · refine .inr (List.mem_filter.mpr ⟨mem_successors_iff.mpr ht, ?_⟩)
          simpa using hold
      refine ⟨fun c hc => ?_, ?_, fun c hc t ht => ?_⟩
      · rcases hc with hwork | hreached
        · rcases List.mem_append.mp hwork with hfresh | hwork
          · have hedge := mem_successors_iff.mp (List.mem_filter.mp (List.mem_reverse.mp hfresh)).1
            exact hb.tail hedge
          · exact h.reaches c (.inl (List.mem_cons_of_mem b hwork))
        · rcases List.mem_cons.mp hreached with rfl | hreached
          · exact hb
          · exact h.reaches c (.inr hreached)
      · have := h.first
        simp only [List.mem_cons, List.mem_append] at this ⊢
        tauto
      · have hmet : t ∈ work ∨ t ∈ b :: reached ∨
            t ∈ (m.successors b).filter fun t => !(b :: reached).contains t := by
          rcases List.mem_cons.mp hc with rfl | hc
          · exact .inr (hnew t ht)
          · have := h.next c hc t ht
            simp only [List.mem_cons] at this ⊢
            tauto
        simp only [List.mem_append, List.mem_reverse]
        tauto

/-- A bound on the turns that are left: the length of the work, and the successors of the blocks
that have not been visited. -/
def rest (m : Method) (s : Search) : Nat :=
  s.work.length + ∑ i ∈ (Finset.range m.blocks.length).filter (· ∉ s.reached),
    (m.successors i).length

lemma rest_visit (hwork : s.work ≠ []) : (m.visit s).rest m < s.rest m := by
  obtain ⟨work, reached⟩ := s
  cases work with
  | nil => exact absurd rfl hwork
  | cons b work =>
    unfold Method.visit
    by_cases hmem : b ∈ reached
    · simp only [List.contains_iff_mem.mpr hmem, if_true]
      simp [rest]
    · have hmem' : reached.contains b = false := by simpa using hmem
      simp only [hmem', Bool.false_eq_true, if_false, rest, List.length_append,
        List.length_reverse, List.length_cons]
      have hadded := List.length_filter_le (fun t => !(b :: reached).contains t) (m.successors b)
      by_cases hlt : b < m.blocks.length
      · -- the successors of `b` go from the sum to the work
        have hsum := Finset.add_sum_erase
          ((Finset.range m.blocks.length).filter (· ∉ reached))
          (fun i => (m.successors i).length) (a := b) (by simp [hlt, hmem])
        have herase : ((Finset.range m.blocks.length).filter (· ∉ reached)).erase b =
            (Finset.range m.blocks.length).filter (· ∉ b :: reached) := by
          ext i
          simp only [Finset.mem_erase, Finset.mem_filter, List.mem_cons]
          tauto
        rw [herase] at hsum
        omega
      · -- an index that is no block has no successors
        have hnone : m.successors b = [] := by
          simp [successors, List.getElem?_eq_none (Nat.le_of_not_lt hlt)]
        have hsame : (Finset.range m.blocks.length).filter (· ∉ b :: reached) =
            (Finset.range m.blocks.length).filter (· ∉ reached) := by
          ext i
          simp only [Finset.mem_filter, Finset.mem_range, List.mem_cons]
          constructor
          · tauto
          · rintro ⟨hi, hreached⟩
            exact ⟨hi, by rintro (rfl | h) <;> contradiction⟩
        rw [hnone] at hadded ⊢
        rw [hsame]
        simp

end Search

lemma sound_searched (turns : Nat) : (m.searched turns).Sound m := by
  induction turns with
  | zero => exact Search.sound_start
  | succ turns ih => exact ih.visit

lemma visit_of_work_eq_nil {s : Search} (h : s.work = []) : m.visit s = s := by
  rw [visit, h]

lemma rest_searched (turns : Nat) :
    (m.searched turns).work = [] ∨ (m.searched turns).rest m + turns ≤ m.turns := by
  induction turns with
  | zero =>
    right
    have hall : (Finset.range m.blocks.length).filter (· ∉ ([] : List Nat)) =
        Finset.range m.blocks.length := by simp
    show 1 + ∑ i ∈ (Finset.range m.blocks.length).filter (· ∉ ([] : List Nat)),
      (m.successors i).length ≤ m.turns
    rw [hall, turns, List.length_flatMap]
    exact Nat.le_refl _
  | succ turns ih =>
    rw [searched]
    by_cases hwork : (m.searched turns).work = []
    · rw [visit_of_work_eq_nil hwork]
      exact .inl hwork
    · have hless := Search.rest_visit (m := m) hwork
      rcases ih with hnil | hle
      · exact absurd hnil hwork
      · exact .inr (by omega)

/-- The search ends. -/
lemma work_searched {turns : Nat} (h : m.turns ≤ turns) : (m.searched turns).work = [] := by
  rcases rest_searched (m := m) turns with hwork | hle
  · exact hwork
  · refine List.length_eq_zero_iff.mp ?_
    have : (m.searched turns).work.length ≤ (m.searched turns).rest m := Nat.le_add_right ..
    omega

/-- The search visits just the blocks that are connected with the first one. -/
lemma mem_reachable_iff : k ∈ m.reachable ↔ m.Reaches k := by
  have hsound := sound_searched (m := m) m.turns
  have hwork := work_searched (m := m) (Nat.le_refl _)
  constructor
  · intro h
    exact hsound.reaches k (.inr h)
  · intro h
    induction h with
    | refl => exact hsound.first.resolve_left (by simp [hwork])
    | tail _ hedge ih => exact (hsound.next _ ih _ hedge).resolve_left (by simp [hwork])

/-! ## Defects inside blocks -/

lemma not_blockFails_iff {b : Block} (hb : m.blocks[k]? = some b) :
    (∀ e, ¬ m.BlockFails k e) ↔
      ¬ b.HasDeadCode ∧ (k + 1 = m.blocks.length → ∃ i, b.EndsAt i) := by
  constructor
  · intro h
    refine ⟨fun hdead => ?_, fun hlast => ?_⟩
    · obtain ⟨i, hfirst, hmore⟩ := hdead.exists_first
      exact h _ (.deadCode hb hfirst hmore)
    · by_contra hends
      exact h _ (.fallsOffEnd hb hlast (not_exists.mp hends))
  · rintro ⟨hdead, hlast⟩ e hfails
    cases hfails with
    | deadCode hb' hfirst hmore =>
      obtain rfl : b = _ := Option.some.inj (hb.symm.trans hb')
      exact hdead ⟨_, hfirst.1, hmore⟩
    | fallsOffEnd hb' hend hends =>
      obtain rfl : b = _ := Option.some.inj (hb.symm.trans hb')
      obtain ⟨i, hi⟩ := hlast hend
      exact hends i hi

/-- A turn of the check: the defect of the first of the blocks, or else that of the others. -/
lemma blockDefect?_cons {b : Block} (bs : List Block) (hb : m.blocks[k]? = some b) :
    (∃ e, m.BlockFails k e ∧ blockDefect? m.blocks.length k (b :: bs) = some e) ∨
    ((∀ e, ¬ m.BlockFails k e) ∧ blockDefect? m.blocks.length k (b :: bs) =
      blockDefect? m.blocks.length (k + 1) bs) := by
  have hk : k < m.blocks.length := (List.getElem?_eq_some_iff.mp hb).1
  cases ht : b.terminator? with
  | some t =>
    have hfirst := Block.terminator?_eq_some_iff.mp ht
    by_cases hmore : t + 1 < b.trees.length
    · exact .inl ⟨_, .deadCode hb hfirst hmore, by simp only [blockDefect?, ht, hmore, if_true]⟩
    · refine .inr ⟨(not_blockFails_iff hb).mpr ⟨fun hdead => ?_, fun _ => ⟨t, hfirst.1⟩⟩, ?_⟩
      · obtain ⟨i, hi, hmore'⟩ := hdead.exists_first
        obtain rfl : t = i := Option.some.inj
          (ht.symm.trans (Block.terminator?_eq_some_iff.mpr hi))
        exact hmore hmore'
      · simp only [blockDefect?, ht, hmore, if_false]
  | none =>
    have hends := Block.terminator?_eq_none_iff.mp ht
    by_cases hnext : k + 1 < m.blocks.length
    · refine .inr ⟨(not_blockFails_iff hb).mpr ⟨fun hdead => ?_, fun hlast => ?_⟩, ?_⟩
      · obtain ⟨i, hi, -⟩ := hdead
        exact hends i hi
      · omega
      · simp only [blockDefect?, ht, hnext, if_true]
    · exact .inl ⟨_, .fallsOffEnd hb (by omega) hends,
        by simp only [blockDefect?, ht, hnext, if_false]⟩

/-- From an index on, the check finds the first block that fails. -/
lemma blockDefect?_eq {bs : List Block} (hbs : bs = m.blocks.drop k) :
    (∃ i e, k ≤ i ∧ m.BlockFails i e ∧ (∀ j, k ≤ j → j < i → ∀ e', ¬ m.BlockFails j e') ∧
      blockDefect? m.blocks.length k bs = some e) ∨
    ((∀ j, k ≤ j → ∀ e', ¬ m.BlockFails j e') ∧
      blockDefect? m.blocks.length k bs = none) := by
  induction bs generalizing k with
  | nil =>
    refine .inr ⟨fun j hj e' hfails => ?_, rfl⟩
    have hlen := List.drop_eq_nil_iff.mp hbs.symm
    have hnone : m.blocks[j]? = none := List.getElem?_eq_none (by omega)
    cases hfails <;> simp_all
  | cons b bs ih =>
    have hb : m.blocks[k]? = some b := by
      rw [← List.head?_drop, ← hbs]
      rfl
    have hdrop : bs = m.blocks.drop (k + 1) := by
      rw [← List.tail_drop, ← hbs]
      rfl
    rcases blockDefect?_cons bs hb with ⟨e, hfails, he⟩ | ⟨hok, heq⟩
    · exact .inl ⟨k, e, Nat.le_refl k, hfails, by omega, he⟩
    · rw [heq]
      -- a block from `k` on is block `k` or stands behind it
      have hfrom : ∀ j, k ≤ j → (k + 1 ≤ j → ∀ e', ¬ m.BlockFails j e') →
          ∀ e', ¬ m.BlockFails j e' := by
        intro j hj hlater
        by_cases hjk : j = k
        · exact hjk ▸ hok
        · exact hlater (by omega)
      rcases ih hdrop with ⟨i, e, hi, hfails, hbefore, he⟩ | ⟨hall, hnone⟩
      · exact .inl ⟨i, e, by omega, hfails,
          fun j hj hji => hfrom j hj fun hj' => hbefore j hj' hji, he⟩
      · exact .inr ⟨fun j hj => hfrom j hj fun hj' => hall j hj', hnone⟩

/-! ## The answer -/

/-- The block that the check reports to be unreachable is the first one that is not connected with
block 0. -/
lemma unreachable?_eq_some_iff : m.unreachable? = some e ↔
    ∃ k b, m.blocks[k]? = some b ∧ ¬ m.Reaches k ∧ (∀ j < k, m.Reaches j) ∧
      e = .unreachable (b.label k) := by
  rw [unreachable?, Option.map_eq_some_iff]
  constructor
  · rintro ⟨⟨b, k⟩, hfind, rfl⟩
    obtain ⟨hk, i, hi, hget, hbefore⟩ := List.find?_eq_some_iff_getElem.mp hfind
    have hi' : i < m.blocks.length := by simpa using hi
    obtain ⟨rfl, rfl⟩ : m.blocks[i] = b ∧ i = k := by simpa using hget
    refine ⟨i, _, List.getElem?_eq_getElem hi', ?_, fun j hj => ?_, rfl⟩
    · rw [← mem_reachable_iff]
      simpa using hk
    · rw [← mem_reachable_iff]
      simpa using hbefore j hj
  · rintro ⟨k, b, hb, hk, hbefore, rfl⟩
    obtain ⟨hlt, rfl⟩ := List.getElem?_eq_some_iff.mp hb
    refine ⟨(m.blocks[k], k), ?_, rfl⟩
    refine List.find?_eq_some_iff_getElem.mpr ⟨?_, k, by simpa, by simp, ?_⟩
    · rw [← mem_reachable_iff] at hk
      simpa using hk
    · intro j hj
      simpa using mem_reachable_iff.mpr (hbefore j hj)

lemma BlockFails.unique {e' : FlowError} (h : m.BlockFails k e) (h' : m.BlockFails k e') :
    e = e' := by
  cases h with
  | deadCode hb hfirst hmore =>
    cases h' with
    | deadCode hb' hfirst' hmore' =>
      obtain rfl := Option.some.inj (hb.symm.trans hb')
      have := Option.some.inj ((Block.terminator?_eq_some_iff.mpr hfirst).symm.trans
        (Block.terminator?_eq_some_iff.mpr hfirst'))
      rw [this]
    | fallsOffEnd hb' hlast hends =>
      obtain rfl := Option.some.inj (hb.symm.trans hb')
      exact absurd hfirst.1 (hends _)
  | fallsOffEnd hb hlast hends =>
    cases h' with
    | deadCode hb' hfirst hmore =>
      obtain rfl := Option.some.inj (hb.symm.trans hb')
      exact absurd hfirst.1 (hends _)
    | fallsOffEnd hb' hlast' hends' =>
      obtain rfl := Option.some.inj (hb.symm.trans hb')
      rfl

/-- There is only one first index with a property. -/
lemma first_unique {P : Nat → Prop} {i j : Nat} (hi : P i) (hi' : ∀ k < i, ¬ P k) (hj : P j)
    (hj' : ∀ k < j, ¬ P k) : i = j := by
  rcases Nat.lt_trichotomy i j with hlt | heq | hlt
  · exact absurd hi (hj' i hlt)
  · exact heq
  · exact absurd hj (hi' j hlt)

/-- A method has one defect to report at most. -/
lemma FlowFails.unique {e' : FlowError} (h : m.FlowFails e) (h' : m.FlowFails e') : e = e' := by
  cases h with
  | block hfails hbefore =>
    cases h' with
    | block hfails' hbefore' =>
      have hk := first_unique (P := fun k => ∃ e, m.BlockFails k e) ⟨_, hfails⟩
        (fun j hj => not_exists.mpr (hbefore j hj)) ⟨_, hfails'⟩
        (fun j hj => not_exists.mpr (hbefore' j hj))
      exact hfails.unique (hk ▸ hfails')
    | unreachable hblocks => exact absurd hfails (hblocks _ _)
  | unreachable hblocks hb hreaches hbefore =>
    cases h' with
    | block hfails' => exact absurd hfails' (hblocks _ _)
    | unreachable _ hb' hreaches' hbefore' =>
      have hk := first_unique (P := fun k => ¬ m.Reaches k) hreaches
        (fun j hj => not_not.mpr (hbefore j hj)) hreaches'
        (fun j hj => not_not.mpr (hbefore' j hj))
      subst hk
      rw [Option.some.inj (hb.symm.trans hb')]

/-- The flow is well formed if no block fails and all are connected with the first one. -/
lemma flowsWell_iff (hne : m.blocks ≠ []) :
    m.FlowsWell ↔ (∀ j e, ¬ m.BlockFails j e) ∧ ∀ k < m.blocks.length, m.Reaches k := by
  have hpos := List.length_pos_of_ne_nil hne
  have hgetLast : m.blocks.getLast? = m.blocks[m.blocks.length - 1]? :=
    List.getLast?_eq_getElem?
  constructor
  · rintro ⟨hdead, ⟨last, i, hlast, hends⟩, hreaches⟩
    refine ⟨fun j e hfails => ?_, hreaches⟩
    cases hfails with
    | deadCode hb hfirst hmore => exact hdead _ (List.mem_of_getElem? hb) ⟨_, hfirst.1, hmore⟩
    | fallsOffEnd hb hj hnone =>
      obtain rfl : j = m.blocks.length - 1 := by omega
      obtain rfl := Option.some.inj (hb.symm.trans (hgetLast.symm.trans hlast))
      exact hnone i hends
  · rintro ⟨hblocks, hreaches⟩
    refine ⟨fun b hb => ?_, ?_, hreaches⟩
    · obtain ⟨j, hj⟩ := List.mem_iff_getElem?.mp hb
      exact ((not_blockFails_iff hj).mp (hblocks j)).1
    · obtain ⟨b, hb⟩ : ∃ b, m.blocks[m.blocks.length - 1]? = some b :=
        ⟨_, List.getElem?_eq_getElem (by omega)⟩
      obtain ⟨i, hi⟩ := ((not_blockFails_iff hb).mp (hblocks _)).2 (by omega)
      exact ⟨b, i, hgetLast.trans hb, hi⟩

lemma FlowFails.not_flowsWell (h : m.FlowFails e) (hne : m.blocks ≠ []) : ¬ m.FlowsWell := by
  intro hwell
  obtain ⟨hblocks, hreaches⟩ := (flowsWell_iff hne).mp hwell
  cases h with
  | block hfails => exact hblocks _ _ hfails
  | unreachable _ hb hnot =>
    exact hnot (hreaches _ (List.getElem?_eq_some_iff.mp hb).1)

/-- The check accepts a method whose flow is well formed, and reports the defect of another one. -/
lemma checkFlow_spec (hne : m.blocks ≠ []) :
    (m.checkFlow = .ok () ∧ m.FlowsWell) ∨ ∃ e, m.checkFlow = .error e ∧ m.FlowFails e := by
  have hall : m.blocks = m.blocks.drop 0 := rfl
  rcases blockDefect?_eq hall with ⟨i, e, -, hfails, hbefore, he⟩ | ⟨hall, hnone⟩
  · refine .inr ⟨e, by simp only [checkFlow, he], .block hfails fun j hj => ?_⟩
    exact hbefore j (Nat.zero_le j) hj
  · have hblocks : ∀ j e, ¬ m.BlockFails j e := fun j => hall j (Nat.zero_le j)
    cases hun : m.unreachable? with
    | some e =>
      obtain ⟨k, b, hb, hk, hbefore, rfl⟩ := unreachable?_eq_some_iff.mp hun
      exact .inr ⟨_, by simp only [checkFlow, hnone, hun], .unreachable hblocks hb hk hbefore⟩
    | none =>
      refine .inl ⟨by simp only [checkFlow, hnone, hun], (flowsWell_iff hne).mpr ⟨hblocks, ?_⟩⟩
      -- the first block that is not connected would have been reported
      intro k
      induction k using Nat.strong_induction_on with
      | h k ih =>
        intro hk
        by_contra hnot
        have hsome := unreachable?_eq_some_iff.mpr
          ⟨k, _, List.getElem?_eq_getElem hk, hnot, fun j hj => ih j hj (by omega), rfl⟩
        rw [hun] at hsome
        simp at hsome

/-- **The check of control flow decides.**  A method with blocks passes just if no tree follows a
return or goto in its block, the last block has one and every block is connected with the first.
Any other method is rejected for the first block that has a defect inside, or if there is none for
the first block that is not connected.  The search for connected blocks ends on every method: no
work is left after the turns that are taken.  That branches go to blocks of the method is not
needed: from an index that is no block there are no edges. -/
theorem checkFlow_decides (hne : m.blocks ≠ []) :
    (m.checkFlow = .ok () ↔ m.FlowsWell) ∧
      (∀ e, m.checkFlow = .error e ↔ m.FlowFails e) ∧
      ∀ n, m.turns ≤ n → (m.searched n).work = [] := by
  refine ⟨?_, fun e => ?_, fun n hn => work_searched hn⟩
  · rcases checkFlow_spec hne with ⟨hok, hwell⟩ | ⟨e, he, hfails⟩
    · simp [hok, hwell]
    · simp [he, hfails.not_flowsWell hne]
  · rcases checkFlow_spec hne with ⟨hok, hwell⟩ | ⟨e', he, hfails⟩
    · simp only [hok, reduceCtorEq, false_iff]
      exact fun hfails => hfails.not_flowsWell hne hwell
    · rw [he, Except.error.injEq]
      constructor
      · rintro rfl
        exact hfails
      · exact fun h => hfails.unique h

/-- A method whose first block jumps over the second one, and whose third block is a loop. -/
def jumping : Method :=
  ⟨none, .noType, [], [⟨none, [.node .goto .noType (.target 2) []]⟩,
    ⟨some "island", [.node .ret .noType .none []]⟩,
    ⟨some "loop", [.node .goto .noType (.target 2) []]⟩]⟩

/-- The block that is jumped over is the defect of `jumping`. -/
theorem checkFlow_decides_jumping :
    jumping.blocks ≠ [] ∧ jumping.checkFlow = .error (.unreachable "island") ∧
      jumping.FlowFails (.unreachable "island") := by
  have hcheck : jumping.checkFlow = .error (.unreachable "island") := by decide
  exact ⟨by simp [jumping], hcheck,
    ((checkFlow_decides (m := jumping) (by simp [jumping])).2.1 _).mp hcheck⟩

end Method

end TreeCode
