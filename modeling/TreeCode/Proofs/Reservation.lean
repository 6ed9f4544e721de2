import Mathlib.Tactic.Common
import TreeCode.Proofs.Emitted
import TreeCode.Proofs.Slots

/-!
# What a frame is laid out for

The slots that a method asks for are said without the shape that its frame is planned from: by its
parameters, by the calls in its trees and how deep they are nested, and by its vectors
(`Method.Uses`).  The planned frame has room for all of them.  They are aligned, within the frame,
and no two of them overlap (`Method.slots_apart`).
-/

namespace TreeCode

/-- So many calls of the tree are one within the other. -/
inductive Node.Nests : Nat → Node → Prop where
  | none (n : Node) : Nests 0 n
  | call {type : DataType} {imm : Immediate} {children : List Node} :
      Nests 1 (.node .call type imm children)
  | around {k : Nat} {type : DataType} {imm : Immediate} {children : List Node} {c : Node}
      (hc : c ∈ children) (h : Nests k c) : Nests (k + 1) (.node .call type imm children)
  | inside {k : Nat} {op : Opcode} {type : DataType} {imm : Immediate} {children : List Node}
      {c : Node} (hc : c ∈ children) (h : Nests k c) : Nests k (.node op type imm children)

/-- The shape of a tree has a level for each of the calls. -/
lemma Node.Nests.le_levels {k : Nat} {n : Node} (h : n.Nests k) : k ≤ n.callShape.levels := by
  induction h with
  | none => exact Nat.zero_le _
  | call =>
    rw [Node.callShape, if_pos rfl]
    exact Nat.succ_pos _
  | around hc _ ih =>
    rw [Node.callShape, if_pos rfl]
    exact Nat.succ_le_succ (Nat.le_trans ih (Node.callShape_le_of_mem hc).1)
  | inside hc _ ih =>
    have hle := Nat.le_trans ih (Node.callShape_le_of_mem hc).1
    rw [Node.callShape]
    split
    · exact Nat.le_succ_of_le hle
    · exact hle

namespace Method

variable {m : Method} {spillSlots : Nat} {n : Node} {slot slot' : Slot}

/-- The slots that a method asks for, with so many for values that are kept across a call. -/
inductive Uses (m : Method) (spillSlots : Nat) : Slot → Prop where
  | param {index : Nat} (h : index < m.params.length) : Uses m spillSlots (.param index)
  | spill {index : Nat} {type : DataType} {imm : Immediate} {children : List Node}
      (h : index < spillSlots) (calls : m.HasNode (.node .call type imm children)) :
      Uses m spillSlots (.spill index)
  /-- The tree with the most levels need not have the widest call. -/
  | staging {level arg : Nat} {type : DataType} {imm : Immediate} {children : List Node} {n : Node}
      (hn : n ∈ m.trees) (nests : n.Nests (level + 1))
      (calls : m.HasNode (.node .call type imm children)) (h : arg < children.length) :
      Uses m spillSlots (.staging level arg)
  | scratch {index : Nat} {n : Node} (h : index < 2) (hn : m.HasNode n)
      (vector : n.type.isVector) : Uses m spillSlots (.scratch index)

/-- Every node is within the frame that is planned, below as many levels as calls are around it. -/
lemma within_of_hasNode (h : m.HasNode n) :
    ∃ level, n.Within (Node.callShapes m.trees) (m.trees.any Node.hasVector) level := by
  induction h with
  | root hb hn => exact ⟨0, Node.within_of_mem (List.mem_flatMap.mpr ⟨_, hb, hn⟩)⟩
  | @child op _ _ _ _ _ hc ih =>
    obtain ⟨level, hwithin⟩ := ih
    by_cases hop : op = .call
    · subst hop
      exact ⟨level + 1, hwithin.of_mem_call hc⟩
    · exact ⟨level, hwithin.of_mem hop hc⟩

/-- The frame is laid out for what the method asks for. -/
lemma Uses.reserved (h : m.Uses spillSlots slot) :
    slot.Reserved m.params.length spillSlots (Node.callShapes m.trees)
      (m.trees.any Node.hasVector) := by
  cases h with
  | param h => exact h
  | spill h calls =>
    obtain ⟨level, hwithin⟩ := within_of_hasNode calls
    exact ⟨Nat.zero_lt_of_lt hwithin.room_of_call.1, h⟩
  | staging hn nests calls h =>
    obtain ⟨level, hwithin⟩ := within_of_hasNode calls
    have hlevels : _ ≤ (Node.callShapes m.trees).levels :=
      Nat.le_trans nests.le_levels (Node.callShape_le_of_mem hn).1
    exact ⟨hlevels, Nat.lt_of_lt_of_le h hwithin.room_of_call.2⟩
  | @scratch _ n h hn vector =>
    obtain ⟨op, type, imm, children⟩ := n
    obtain ⟨level, hwithin⟩ := within_of_hasNode hn
    exact ⟨hwithin.vectors_of_type vector, h⟩

end Method

/-- A slot begins at a multiple of its size. -/
lemma Slot.bytes_dvd_place {f : Frame} (h : f.Aligned) (slot : Slot) :
    slot.bytes ∣ slot.place f := by
  have h8 : (8 : Nat) ∣ 16 := by decide
  cases slot with
  | param index => exact Nat.dvd_mul_left _ _
  | spill index => exact Nat.dvd_add h.spillBase (Nat.dvd_mul_left _ _)
  | staging level arg =>
    exact Nat.dvd_add (Nat.dvd_add (Nat.dvd_trans h8 h.stagingBase)
      (Nat.dvd_trans h.stagingRow (Nat.dvd_mul_left _ _))) (Nat.dvd_mul_left _ _)
  | scratch index => exact Nat.dvd_add h.scratchBase (Nat.dvd_mul_left _ _)

/-- **Slots of a frame never overlap.**  Of a frame that is planned for a method and is smaller than
2^31 bytes, the size is a multiple of 16, every slot that the method asks for begins at a multiple
of its size, which is 8 or 16 bytes, at an offset that instructions can hold, and ends within the
frame, and any two of them are disjoint. -/
theorem Method.slots_apart (m : Method) (spillSlots : Nat)
    (hsize : (Frame.plan m spillSlots).size < 2 ^ 31) :
    let f := Frame.plan m spillSlots
    16 ∣ f.size ∧
    (∀ slot, m.Uses spillSlots slot → (frameOffset (slot.place f)).toInt = slot.place f ∧
      slot.bytes ∣ slot.place f ∧ slot.place f + slot.bytes ≤ f.size) ∧
    ∀ slot slot', m.Uses spillSlots slot → m.Uses spillSlots slot' → slot ≠ slot' →
      slot.place f + slot.bytes ≤ slot'.place f ∨ slot'.place f + slot'.bytes ≤ slot.place f := by
  have hfits := Frame.fits_plan m spillSlots hsize
  have haligned := Frame.aligned_plan m spillSlots
  refine ⟨dvd_align16 _, fun slot hslot => ?_, fun slot slot' hslot hslot' hne => ?_⟩
  · have hle := hslot.reserved.le_size hfits
    exact ⟨toInt_frameOffset (by omega), Slot.bytes_dvd_place haligned slot, hle⟩
  · exact hslot.reserved.disjoint hslot'.reserved hfits hne

/-- A method with a parameter that calls with one argument from within another call, and with three
arguments elsewhere. -/
def Method.calling : Method :=
  let parameter : Node := .node .load .int64 (.parm 0) []
  let call (arguments : List Node) : Node := .node .call .int64 (.address 4096) arguments
  ⟨none, .int64, [.int64], [⟨none, [call [call [parameter]],
    call [parameter, parameter, parameter],
    .node .ret .int64 .none [parameter]]⟩]⟩

/-- The row of the inner call begins behind the third argument of the outer one, although the calls
that are nested have one argument each. -/
theorem Method.slots_apart_calling : (Frame.plan calling 2).size < 2 ^ 31 ∧
    calling.Uses 2 (.staging 0 2) ∧ calling.Uses 2 (.staging 1 0) ∧
      ((Slot.staging 0 2).place (Frame.plan calling 2) + 8 ≤
          (Slot.staging 1 0).place (Frame.plan calling 2) ∨
        (Slot.staging 1 0).place (Frame.plan calling 2) + 8 ≤
          (Slot.staging 0 2).place (Frame.plan calling 2)) := by
  have hsize : (Frame.plan calling 2).size < 2 ^ 31 := by decide
  have htrees : ∀ n ∈ calling.trees, calling.HasNode n := by
    intro n hn
    obtain ⟨b, hb, hn⟩ := List.mem_flatMap.mp hn
    exact .root hb hn
  have hwide := htrees _ (.tail _ (.head _))
  have houter : calling.Uses 2 (.staging 0 2) := .staging (.head _) .call hwide (by decide)
  have hinner : calling.Uses 2 (.staging 1 0) :=
    .staging (.head _) (.around (.head _) .call) hwide (by decide)
  exact ⟨hsize, houter, hinner,
    (slots_apart calling 2 hsize).2.2 _ _ houter hinner (by decide)⟩

end TreeCode
