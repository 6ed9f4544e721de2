import Mathlib.Tactic.Common
import Mathlib.Tactic.IntervalCases
import TreeCode.Proofs.Execution

/-!
# Numbers put together from halfwords

AArch64 sets a register to a number one halfword after the other.  Numbers are equal if their
halfwords are (`eq_of_halfword_eq`), and setting halfwords changes no others
(`halfword_setHalves`), so it suffices to set those that are not zero (`execute?_movWide`).
-/

namespace TreeCode.A64

variable {c : Core} {dst : Register} {value old : UInt64} {imm : UInt32} {half i j : Nat}
  {wide keep : Bool}

/-! ## Halfwords -/

lemma eq_of_halfword_eq {a b : UInt64} (h : ∀ j < 4, halfword a j = halfword b j) : a = b := by
  have hsame (j : Nat) (hj : j < 4) : a.toNat / 2 ^ (16 * j) % 2 ^ 16 =
      b.toNat / 2 ^ (16 * j) % 2 ^ 16 := by
    rw [← toNat_halfword_eq hj, ← toNat_halfword_eq hj, h j hj]
  have h₀ := hsame 0 (by decide)
  have h₁ := hsame 1 (by decide)
  have h₂ := hsame 2 (by decide)
  have h₃ := hsame 3 (by decide)
  have ha := a.toNat_lt
  have hb := b.toNat_lt
  apply UInt64.toNat_inj.mp
  omega

lemma halfword_narrowed (hj : j < 4) :
    halfword (narrowed wide value) j = if j < halfwords wide then halfword value j else 0 := by
  apply UInt32.toNat_inj.mp
  have hlt := value.toNat_lt
  rw [toNat_halfword_eq hj]
  cases wide with
  | true =>
    rw [if_pos (show j < halfwords true from hj), toNat_halfword_eq hj]
    rfl
  | false =>
    have hlow : (narrowed false value).toNat = value.toNat % 2 ^ 32 := by
      simp [narrowed]
    have hcount : halfwords false = 2 := rfl
    rw [hlow, hcount]
    split
    · rw [toNat_halfword_eq hj]
      interval_cases j <;> omega
    · rw [UInt32.toNat_zero]
      interval_cases j <;> omega

lemma halfword_withHalfword (hhalf : half < 4) (hj : j < 4) (himm : imm.toNat < 2 ^ 16) :
    halfword (withHalfword old half imm) j = if j = half then imm else halfword old j := by
  have hlt := old.toNat_lt
  apply UInt32.toNat_inj.mp
  rw [toNat_halfword_eq hj, withHalfword, UInt64.toNat_ofNat']
  split
  · rename_i heq
    subst heq
    interval_cases j <;> omega
  · rw [toNat_halfword_eq hj]
    interval_cases half <;> interval_cases j <;> omega

/-- Setting a halfword keeps the others of the width, or clears them. -/
lemma halfword_setHalf (hhalf : half < halfwords wide) (hj : j < 4) (himm : imm.toNat < 2 ^ 16) :
    halfword (setHalf wide keep half imm old) j =
      if j = half then imm
      else if keep = true ∧ j < halfwords wide then halfword old j else 0 := by
  have hhalf4 := Nat.lt_of_lt_of_le hhalf (halfwords_le wide)
  rw [setHalf, halfword_withHalfword hhalf4 hj himm]
  cases keep with
  | true => simp [halfword_narrowed hj]
  | false => simp [halfword_zero hj]

/-- What setting some of the halfwords of a number one after the other makes of the number in a
register. -/
def setHalves (wide : Bool) (value : UInt64) (halves : List Nat) (old : UInt64) : UInt64 :=
  halves.foldl (fun v i => setHalf wide true i (halfword value i) v) old

/-- Setting some of the halfwords of a number keeps the others. -/
lemma halfword_setHalves {l : List Nat} (hl : ∀ i ∈ l, i < halfwords wide) (hj : j < 4)
    (hold : ∀ j < 4, halfwords wide ≤ j → halfword old j = 0) :
    halfword (setHalves wide value l old) j =
      if j ∈ l then halfword value j else halfword old j := by
  induction l generalizing old with
  | nil => simp [setHalves]
  | cons i l ih =>
    have hi := hl i List.mem_cons_self
    have himm := @toNat_halfword_lt value i (Nat.lt_of_lt_of_le hi (halfwords_le wide))
    have hset (j : Nat) (hj : j < 4) := @halfword_setHalf old _ i j wide true hi hj himm
    rw [setHalves, List.foldl_cons, ← setHalves, ih (fun i hi => hl i (List.mem_cons_of_mem _ hi)),
      hset j hj]
    · by_cases hmem : j ∈ l
      · simp [hmem]
      · by_cases hji : j = i
        · simp [hji]
        · by_cases hlow : j < halfwords wide
          · simp [hmem, hji, hlow]
          · simp [hmem, hji, hlow, hold j hj (Nat.le_of_not_lt hlow)]
    · intro j hj hhigh
      rw [hset j hj, if_neg (by omega), if_neg (by omega)]

/-! ## Moves -/

lemma execute?_map_moveHalf {l : List Nat} (hl : ∀ i ∈ l, i < halfwords wide)
    (rest : List UInt8) (c : Core) :
    execute? (encodeAll (l.map fun i => moveHalf true wide i (halfword value i) dst) ++ rest) c =
      execute? rest (c.write dst (setHalves wide value l (c.read dst))) := by
  induction l generalizing c with
  | nil => simp [setHalves, c.write_read]
  | cons i l ih =>
    have hi := hl i List.mem_cons_self
    have himm := @toNat_halfword_lt value i (Nat.lt_of_lt_of_le hi (halfwords_le wide))
    rw [List.map_cons, encodeAll_cons, List.append_assoc,
      execute?_silent (step?_moveHalf true wide hi himm c),
      ih fun i hi => hl i (List.mem_cons_of_mem _ hi), c.write_write,
      c.write_read_write dst _ (setHalves wide value l)]
    rfl

/-- Setting one halfword of a number, which clears the others, and then all that are not zero sets a
register to the number. -/
lemma execute?_moveHalves {first : Nat} {others : List Nat} (hfirst : first < halfwords wide)
    (hothers : ∀ i ∈ others, i < halfwords wide)
    (hzero : ∀ j < halfwords wide, j ≠ first → j ∉ others → halfword value j = 0)
    (rest : List UInt8) (c : Core) :
    execute? (encodeAll (moveHalf false wide first (halfword value first) dst ::
        others.map fun i => moveHalf true wide i (halfword value i) dst) ++ rest) c =
      execute? rest (c.write dst (narrowed wide value)) := by
  have himm := @toNat_halfword_lt value first (Nat.lt_of_lt_of_le hfirst (halfwords_le wide))
  have hset (j : Nat) (hj : j < 4) :=
    @halfword_setHalf (c.read dst) _ first j wide false hfirst hj himm
  have hvalue : setHalves wide value others
      (setHalf wide false first (halfword value first) (c.read dst)) = narrowed wide value := by
    refine eq_of_halfword_eq fun j hj => ?_
    rw [halfword_setHalves hothers hj, hset j hj, halfword_narrowed hj]
    · by_cases hmem : j ∈ others
      · rw [if_pos hmem, if_pos (hothers j hmem)]
      rw [if_neg hmem]
      by_cases heq : j = first
      · rw [if_pos heq, if_pos (by omega), heq]
      rw [if_neg heq, if_neg (by simp)]
      -- what is not set is zero, below the width of the register and above it
      split
      · rename_i hlow
        exact (hzero j hlow heq hmem).symm
      · rfl
    · intro j hj hhigh
      rw [hset j hj, if_neg (by omega), if_neg (by simp)]
  rw [encodeAll_cons, List.append_assoc,
    execute?_silent (step?_moveHalf false wide hfirst himm c), execute?_map_moveHalf hothers,
    c.write_write, c.write_read_write dst _ (setHalves wide value others), hvalue]

/-- The first halfword of a number that is not zero has no others before it. -/
lemma first_le_of_halfword_ne_zero (hj : j < halfwords wide) (hne : halfword value j ≠ 0) :
    ((List.range (halfwords wide)).find? fun i => halfword value i != 0).getD 0 ≤ j := by
  cases hfind : (List.range (halfwords wide)).find? fun i => halfword value i != 0 with
  | none =>
    have hzero := List.find?_eq_none.mp hfind j (List.mem_range.mpr hj)
    simp [hne] at hzero
  | some i =>
    obtain ⟨-, -, hbefore⟩ := List.find?_range_eq_some.mp hfind
    by_contra hlt
    have hzero := hbefore j (Nat.lt_of_not_le hlt)
    simp [hne] at hzero

/-- The moves for a number set a register to it, or to its low 32 bits. -/
theorem execute?_movWide (dst : Register) (value : UInt64) (wide : Bool) (rest : List UInt8)
    (c : Core) :
    execute? (encodeAll (movWide dst value wide) ++ rest) c =
      execute? rest (c.write dst (narrowed wide value)) := by
  obtain ⟨first, hfirst⟩ :
      ∃ first, first =
        ((List.range (halfwords wide)).find? fun i => halfword value i != 0).getD 0 :=
    ⟨_, rfl⟩
  obtain ⟨others, hothers⟩ : ∃ others, others =
      (List.range (halfwords wide)).filter fun i => first < i && halfword value i != 0 := ⟨_, rfl⟩
  have hmoves : movWide dst value wide = moveHalf false wide first (halfword value first) dst ::
      others.map fun i => moveHalf true wide i (halfword value i) dst := by
    rw [hothers, hfirst]
    rfl
  rw [hmoves]
  refine execute?_moveHalves ?_ (fun i hi => ?_) (fun j hj hne hmem => ?_) rest c
  · rw [hfirst]
    cases hfind : (List.range (halfwords wide)).find? fun i => halfword value i != 0 with
    | none => cases wide <;> decide
    | some i => exact List.mem_range.mp (List.mem_of_find?_eq_some hfind)
  · rw [hothers, List.mem_filter, List.mem_range] at hi
    exact hi.1
  · -- a halfword that is not zero is the first one or behind it
    by_contra hnonzero
    have hle : first ≤ j := hfirst ▸ first_le_of_halfword_ne_zero hj hnonzero
    refine hmem ?_
    rw [hothers, List.mem_filter, List.mem_range]
    simp [hj, hnonzero, show first < j by omega]

/-- The moves for all halfwords of a number set a register to it. -/
theorem execute?_movAbsolute (dst : Register) (value : UInt64) (rest : List UInt8) (c : Core) :
    execute? (encodeAll (movAbsolute dst value) ++ rest) c =
      execute? rest (c.write dst value) := by
  have hmoves : movAbsolute dst value = moveHalf false true 0 (halfword value 0) dst ::
      [1, 2, 3].map fun i => moveHalf true true i (halfword value i) dst := rfl
  rw [hmoves]
  refine execute?_moveHalves (by decide) (by decide) (fun j hj hne hmem => ?_) rest c
  have hlt : j < 4 := hj
  simp only [List.mem_cons, List.not_mem_nil] at hmem
  omega

end TreeCode.A64
