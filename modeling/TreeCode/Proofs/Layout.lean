import Mathlib.Algebra.Ring.Nat
import Mathlib.Tactic.Common
import TreeCode.Frame
import TreeCode.Lowering

/-!
# The layout of a frame

The parts of a frame lie one behind the other, and each of them has room for what is put there as
long as a tree is no wider and no deeper than the frame has been laid out for.
-/

namespace TreeCode

/-- A frame with room for parameters, for values kept across a call, for the arguments of calls of a
shape, and for two vectors if there are any. -/
structure Frame.Fits (f : Frame) (params slots : Nat) (shape : CallShape) (vectors : Bool) :
    Prop where
  params_le : params * slotBytes ≤ f.spillBase
  spills_le : 0 < shape.levels → f.spillBase + slots * spillBytes ≤ f.stagingBase
  spillBase_le : f.spillBase ≤ f.stagingBase
  row_eq : f.stagingRow = shape.width * slotBytes
  staging_le : f.stagingBase + f.stagingRow * shape.levels ≤ f.scratchBase
  scratchBase_le : f.scratchBase ≤ f.size
  scratch_le : vectors → f.scratchBase + 2 * vectorBytes ≤ f.size
  size_lt : f.size < 2 ^ 31

lemma le_align16 (n : Nat) : n ≤ align16 n := by
  unfold align16
  omega

lemma align16_le (n : Nat) : align16 n ≤ n + 15 := by
  unfold align16
  omega

namespace Frame

variable {f : Frame} {params slots : Nat} {shape : CallShape} {vectors : Bool}

/-- The frame that is planned for a method fits it, if it is not too large. -/
theorem fits_plan (m : Method) (slots : Nat) (hsize : (plan m slots).size < 2 ^ 31) :
    (plan m slots).Fits m.params.length slots (Node.callShapes m.trees)
      (m.trees.any Node.hasVector) where
  params_le := le_align16 _
  spills_le h := by simp [plan, h]
  spillBase_le := Nat.le_add_right _ _
  row_eq := rfl
  staging_le := le_align16 _
  scratchBase_le := Nat.le_trans (Nat.le_add_right _ _) (le_align16 _)
  scratch_le h := by
    refine Nat.le_trans ?_ (le_align16 _)
    rw [if_pos h]
    exact Nat.le_refl _
  size_lt := hsize

/-- Methods with few parameters whose calls are neither wide nor deep have a small frame. -/
lemma size_plan_lt {m : Method} (hparams : m.params.length ≤ 16) (hslots : slots ≤ 16)
    (hwidth : (Node.callShapes m.trees).width ≤ 16)
    (hlevels : (Node.callShapes m.trees).levels ≤ 1024) : (plan m slots).size < 2 ^ 31 := by
  have hrows : (Node.callShapes m.trees).width * slotBytes * (Node.callShapes m.trees).levels
      ≤ 16 * 8 * 1024 := Nat.mul_le_mul (Nat.mul_le_mul_right 8 hwidth) hlevels
  have h₁ := align16_le (m.params.length * slotBytes)
  have h₂ := align16_le (align16 (m.params.length * slotBytes)
    + (if 0 < (Node.callShapes m.trees).levels then slots * spillBytes else 0)
    + (Node.callShapes m.trees).width * slotBytes * (Node.callShapes m.trees).levels)
  have hspills : (if 0 < (Node.callShapes m.trees).levels then slots * spillBytes else 0)
      ≤ 16 * 16 := by
    simp only [spillBytes]
    split <;> omega
  have hscratch : (if m.trees.any Node.hasVector then 2 * vectorBytes else 0) ≤ 2 * 16 := by
    simp only [vectorBytes]
    split <;> omega
  refine Nat.lt_of_le_of_lt (align16_le _) ?_
  simp only [slotBytes, spillBytes, vectorBytes] at h₁ h₂ hrows hspills hscratch ⊢
  omega

lemma Fits.spillBase_le_scratch (h : f.Fits params slots shape vectors) :
    f.spillBase ≤ f.scratchBase := by
  have hstaging := h.staging_le
  have hspill := h.spillBase_le
  omega

lemma Fits.spillBase_le_size (h : f.Fits params slots shape vectors) : f.spillBase ≤ f.size :=
  Nat.le_trans h.spillBase_le_scratch h.scratchBase_le

lemma Fits.spill_le (h : f.Fits params slots shape vectors) (hlevels : 0 < shape.levels) {k : Nat}
    (hk : k < slots) : f.spill k + spillBytes ≤ f.stagingBase := by
  have hspills := h.spills_le hlevels
  simp only [spill, spillBytes] at hspills ⊢
  omega

lemma staging_succ (level arg : Nat) :
    f.staging level (arg + 1) = f.staging level arg + slotBytes := by
  simp only [staging, slotBytes]
  omega

lemma stagingBase_le_staging (level arg : Nat) : f.stagingBase ≤ f.staging level arg := by
  simp only [staging]
  omega

/-- The slots of a row are in front of the next row. -/
lemma Fits.staging_le_next (h : f.Fits params slots shape vectors) {level arg : Nat}
    (harg : arg ≤ shape.width) : f.staging level arg ≤ f.staging (level + 1) 0 := by
  have hrow : arg * slotBytes ≤ f.stagingRow := by
    rw [h.row_eq]
    exact Nat.mul_le_mul_right _ harg
  simp only [staging, Nat.add_mul]
  omega

lemma Fits.staging_le_scratch (h : f.Fits params slots shape vectors) {level arg : Nat}
    (hlevel : level < shape.levels) (harg : arg ≤ shape.width) :
    f.staging level arg ≤ f.scratchBase := by
  have hrows : (level + 1) * f.stagingRow ≤ f.stagingRow * shape.levels := by
    rw [Nat.mul_comm]
    exact Nat.mul_le_mul_left _ hlevel
  have hnext : f.staging level arg ≤ f.staging (level + 1) 0 := h.staging_le_next harg
  have hstaging := h.staging_le
  simp only [staging] at hnext ⊢
  omega

lemma Fits.staging_zero_le (h : f.Fits params slots shape vectors) {level : Nat}
    (hlevel : level ≤ shape.levels) : f.staging level 0 ≤ f.scratchBase := by
  have hrows : level * f.stagingRow ≤ f.stagingRow * shape.levels := by
    rw [Nat.mul_comm]
    exact Nat.mul_le_mul_left _ hlevel
  have hstaging := h.staging_le
  simp only [staging]
  omega

end Frame

/-- Offsets within a frame are what instructions hold. -/
lemma toInt_frameOffset {n : Nat} (h : n < 2 ^ 31) : (frameOffset n).toInt = n :=
  Int32.toInt_ofNat_of_lt h

/-! ## Trees within a frame -/

/-- A tree for whose calls, around which are so many others, and vectors there is room. -/
structure Node.Within (shape : CallShape) (vectors : Bool) (level : Nat) (n : Node) : Prop where
  levels_le : level + n.callShape.levels ≤ shape.levels
  width_le : n.callShape.width ≤ shape.width
  vectors_of : n.hasVector → vectors

namespace Node

lemma callShape_le_of_mem {c : Node} {cs : List Node} (h : c ∈ cs) :
    c.callShape.levels ≤ (callShapes cs).levels ∧ c.callShape.width ≤ (callShapes cs).width := by
  induction cs with
  | nil => simp at h
  | cons n ns ih =>
    rw [callShapes]
    rcases List.mem_cons.mp h with rfl | h
    · exact ⟨Nat.le_max_left _ _, Nat.le_max_left _ _⟩
    · exact ⟨Nat.le_trans (ih h).1 (Nat.le_max_right _ _),
        Nat.le_trans (ih h).2 (Nat.le_max_right _ _)⟩

lemma levels_callShapes_le {ns : List Node} {k : Nat} (h : ∀ n ∈ ns, n.callShape.levels ≤ k) :
    (callShapes ns).levels ≤ k := by
  induction ns with
  | nil => exact Nat.zero_le k
  | cons n ns ih =>
    rw [List.forall_mem_cons] at h
    exact Nat.max_le.mpr ⟨h.1, ih h.2⟩

lemma width_callShapes_le {ns : List Node} {k : Nat} (h : ∀ n ∈ ns, n.callShape.width ≤ k) :
    (callShapes ns).width ≤ k := by
  induction ns with
  | nil => exact Nat.zero_le k
  | cons n ns ih =>
    rw [List.forall_mem_cons] at h
    exact Nat.max_le.mpr ⟨h.1, ih h.2⟩

lemma anyOf_eq_any (q : Opcode → DataType → Bool) (ns : List Node) :
    anyOf q ns = ns.any (any q) := by
  induction ns with
  | nil => rfl
  | cons n ns ih => rw [anyOf, List.any_cons, ih]

namespace Within

variable {shape : CallShape} {vectors : Bool} {level : Nat} {op : Opcode} {type : DataType}
  {imm : Immediate} {children : List Node} {c : Node}

lemma vectors_of_mem (h : Within shape vectors level (.node op type imm children))
    (hc : c ∈ children) (hvector : c.hasVector) : vectors := by
  refine h.vectors_of ?_
  have hany : children.any (any fun _ type => type.isVector) :=
    List.any_eq_true.mpr ⟨c, hc, hvector⟩
  rw [hasVector, any, anyOf_eq_any, hany, Bool.or_true]

lemma vectors_of_type (h : Within shape vectors level (.node op type imm children))
    (htype : type.isVector) : vectors := by
  refine h.vectors_of ?_
  rw [hasVector, any, htype, Bool.true_or]

/-- The operands of a node that is no call. -/
lemma of_mem (h : Within shape vectors level (.node op type imm children)) (hop : op ≠ .call)
    (hc : c ∈ children) : c.Within shape vectors level := by
  have hlevels := h.levels_le
  have hwidth := h.width_le
  rw [callShape, if_neg hop] at hlevels hwidth
  obtain ⟨hl, hw⟩ := callShape_le_of_mem hc
  exact ⟨by omega, by omega, h.vectors_of_mem hc⟩

/-- A call has a row of the frame with room for its arguments. -/
lemma room_of_call (h : Within shape vectors level (.node .call type imm children)) :
    level < shape.levels ∧ children.length ≤ shape.width := by
  have hlevels := h.levels_le
  have hwidth := h.width_le
  simp only [callShape, if_true, CallShape.around] at hlevels hwidth
  exact ⟨by omega, Nat.le_trans (Nat.le_max_right _ _) hwidth⟩

/-- The arguments of a call are within one call more. -/
lemma of_mem_call (h : Within shape vectors level (.node .call type imm children))
    (hc : c ∈ children) : c.Within shape vectors (level + 1) := by
  have hlevels := h.levels_le
  have hwidth := h.width_le
  simp only [callShape, if_true, CallShape.around] at hlevels hwidth
  obtain ⟨hl, hw⟩ := callShape_le_of_mem hc
  exact ⟨by omega, Nat.le_trans hw (Nat.le_trans (Nat.le_max_left _ _) hwidth),
    h.vectors_of_mem hc⟩

end Within

/-- The trees of a method are within the frame that is planned for it. -/
lemma within_of_mem {m : Method} {n : Node} (h : n ∈ m.trees) :
    n.Within (callShapes m.trees) (m.trees.any hasVector) 0 := by
  obtain ⟨hl, hw⟩ := callShape_le_of_mem h
  exact ⟨by omega, hw, fun hvector => List.any_eq_true.mpr ⟨n, h, hvector⟩⟩

end Node

end TreeCode
