import Mathlib.Data.Finset.Card
import Mathlib.Data.Fintype.Basic
import Mathlib.Data.List.FinRange
import Mathlib.Data.Nat.Bitwise
import Mathlib.Data.Nat.Digits.Defs
import Mathlib.Tactic.Common
import TreeCode.Target.Feature

/-!
# Sets of feature bits

The words of a feature set, the first one lowest, are one number of 128 bits (`number`), and all
that a set answers is an answer about the bits of this number: which it contains (`contains_eq`),
how many they are (`foldl_ones`), and which set it is (`eq_of_contains`).  So a set stands for a
finite set of bit numbers, as `Represents` says, and adding a bit adds it there
(`contains_insert`).  What comes of adding many bits depends on what they are, and not on the order
in which they are added or how often (`represents_insertAll`).
-/

namespace TreeCode

namespace FeatureSet

/-- Words as one number, the first word lowest. -/
def number (words : List UInt32) : Nat := Nat.ofDigits (2 ^ 32) (words.map UInt32.toNat)

/-- The bits that are set in some words. -/
def setBits (words : Vector UInt32 featureWords) : Finset FeatureBit :=
  Finset.univ.filter fun b => (number words.toList).testBit b.val

/-- Adds bits one after the other. -/
def insertAll (s : FeatureSet) (bits : List FeatureBit) : FeatureSet := bits.foldl insert s

/-- A set stands for a finite set of bits. -/
structure Represents (s : FeatureSet) (bits : Finset FeatureBit) : Prop where
  contains_iff : ∀ b, s.contains b = true ↔ b ∈ bits
  mem_toList_iff : ∀ b, b ∈ s.toList ↔ b ∈ bits
  /-- The bits are listed in increasing order, so none of them twice. -/
  ascending : s.toList.Pairwise (· < ·)
  size_eq : s.size = bits.card
  isEmpty_iff : s.isEmpty = true ↔ bits = ∅

variable {s t : FeatureSet} {b : FeatureBit} {bits : Finset FeatureBit} {words : List UInt32}

/-! ## The number that words make -/

lemma testBit_number_cons (w : UInt32) (words : List UInt32) (n : Nat) :
    (number (w :: words)).testBit n =
      if n < 32 then w.toNat.testBit n else (number words).testBit (n - 32) := by
  have hnumber : number (w :: words) = 2 ^ 32 * number words + w.toNat := by
    rw [number, List.map_cons, Nat.ofDigits_cons, Nat.add_comm]
    rfl
  rw [hnumber, Nat.testBit_two_pow_mul_add _ w.toNat_lt]

/-- The bits of the number are those of the words. -/
lemma testBit_number {i j : Nat} (hi : i < words.length) (hj : j < 32) :
    (number words).testBit (32 * i + j) = words[i].toNat.testBit j := by
  induction words generalizing i with
  | nil => cases hi
  | cons w words ih =>
    rw [testBit_number_cons]
    cases i with
    | zero =>
      rw [if_pos (by omega), Nat.mul_zero, Nat.zero_add]
      rfl
    | succ i =>
      have hrest : 32 * (i + 1) + j - 32 = 32 * i + j := by omega
      rw [if_neg (by omega), hrest, ih (Nat.lt_of_succ_lt_succ hi)]
      rfl

/-- The number has as many ones as the words have together. -/
lemma foldl_ones (count : Nat) (words : List UInt32) :
    words.foldl (fun n w => n + ones w 32) count =
      count + ((List.range (32 * words.length)).filter (number words).testBit).length := by
  induction words generalizing count with
  | nil => simp
  | cons w words ih =>
    have hlow : (List.range 32).filter (number (w :: words)).testBit =
        (List.range 32).filter w.toNat.testBit := by
      refine List.filter_congr fun n hn => ?_
      rw [testBit_number_cons, if_pos (List.mem_range.mp hn)]
    have hhigh : (number (w :: words)).testBit ∘ (32 + ·) = (number words).testBit := by
      funext n
      rw [Function.comp_apply, testBit_number_cons, if_neg (by omega), Nat.add_sub_cancel_left]
    have hlength : 32 * (w :: words).length = 32 + 32 * words.length := by
      rw [List.length_cons]
      omega
    rw [List.foldl_cons, ih, hlength, List.range_add, List.filter_append, List.filter_map, hlow,
      hhigh, List.length_append, List.length_map, Nat.add_assoc]
    rfl

/-! ## Bits of a set -/

lemma toNat_mask (b : FeatureBit) : (mask b).toNat = 2 ^ (b.val % 32) := by
  have hlt : 2 ^ (b.val % 32) < 2 ^ 32 :=
    Nat.pow_lt_pow_right (by decide) (Nat.mod_lt _ (by decide))
  have hshift : (UInt32.ofNat (b.val % 32)).toNat % 32 = b.val % 32 := by
    rw [UInt32.toNat_ofNat']
    omega
  rw [mask, UInt32.toNat_shiftLeft, hshift, UInt32.toNat_one, Nat.one_shiftLeft,
    Nat.mod_eq_of_lt hlt]

/-- A set contains the bits that are set in their words. -/
lemma contains_eq_testBit (s : FeatureSet) (b : FeatureBit) : s.contains b =
    (getElem s.words (wordIndex b).val (wordIndex b).isLt).toNat.testBit (b.val % 32) := by
  have hpos : 2 ^ (b.val % 32) ≠ 0 := Nat.pos_iff_ne_zero.mp (Nat.two_pow_pos _)
  rw [contains, Bool.eq_iff_iff, bne_iff_ne, ne_eq, ← UInt32.toNat_inj, UInt32.toNat_and,
    toNat_mask, Nat.and_two_pow, UInt32.toNat_zero]
  cases s.words[(wordIndex b).val].toNat.testBit (b.val % 32) <;> simp

/-- A set contains the bits that are set in its number. -/
lemma contains_eq (s : FeatureSet) (b : FeatureBit) :
    s.contains b = (number s.words.toList).testBit b.val := by
  have hi : b.val / 32 < s.words.toList.length := by
    rw [Vector.length_toList]
    exact (wordIndex b).isLt
  have hword := testBit_number hi (Nat.mod_lt b.val (by decide : 0 < 32))
  rw [Nat.div_add_mod] at hword
  rw [contains_eq_testBit, hword, Vector.getElem_toList]
  rfl

/-- Adding a bit adds it and nothing else. -/
lemma contains_insert (s : FeatureSet) (added b : FeatureBit) :
    (s.insert added).contains b = true ↔ b = added ∨ s.contains b = true := by
  have hsame : b = added ↔
      (wordIndex added).val = (wordIndex b).val ∧ added.val % 32 = b.val % 32 := by
    simp only [Fin.ext_iff, wordIndex]
    omega
  rw [contains_eq_testBit, contains_eq_testBit, insert, Vector.getElem_set, hsame]
  split
  · rename_i hword
    have hget : s.words[(wordIndex added).val] = s.words[(wordIndex b).val] := by
      simp only [hword]
    rw [hget, UInt32.toNat_or, toNat_mask, Nat.testBit_or, Nat.testBit_two_pow, Bool.or_eq_true,
      decide_eq_true_iff, or_comm, and_iff_right hword]
  · rename_i hword
    rw [or_iff_right fun h => hword h.1]

/-- Sets that contain the same bits have the same words. -/
lemma eq_of_contains (h : ∀ b, s.contains b = t.contains b) : s = t := by
  obtain ⟨words⟩ := s
  obtain ⟨words'⟩ := t
  refine congrArg mk (Vector.ext fun i hi => UInt32.toNat_inj.mp (Nat.eq_of_testBit_eq fun j => ?_))
  by_cases hj : j < 32
  · have hlt : 32 * i + j < featureBits := by
      simp only [featureBits, featureWords] at hi ⊢
      omega
    have hi' (words : Vector UInt32 featureWords) : i < words.toList.length := by
      rwa [Vector.length_toList]
    have hbit := h ⟨32 * i + j, hlt⟩
    rwa [contains_eq, contains_eq, testBit_number (hi' _) hj, testBit_number (hi' _) hj,
      Vector.getElem_toList, Vector.getElem_toList] at hbit
  · have hle : 2 ^ 32 ≤ 2 ^ j := Nat.pow_le_pow_right (by decide) (by omega)
    rw [Nat.testBit_lt_two_pow (Nat.lt_of_lt_of_le (UInt32.toNat_lt _) hle),
      Nat.testBit_lt_two_pow (Nat.lt_of_lt_of_le (UInt32.toNat_lt _) hle)]

/-! ## What a set stands for -/

/-- The number of bits is that of the bits listed. -/
lemma size_eq_length (s : FeatureSet) : s.size = s.toList.length := by
  have hcontains : s.contains = (number s.words.toList).testBit ∘ Fin.val := by
    funext b
    exact s.contains_eq b
  have hlength : 32 * s.words.toList.length = featureBits := by
    rw [Vector.length_toList]
    rfl
  rw [size, foldl_ones, Nat.zero_add, hlength, toList, hcontains,
    ← List.map_coe_finRange_eq_range, List.filter_map, List.length_map]

lemma isEmpty_iff_forall (s : FeatureSet) : s.isEmpty = true ↔ ∀ b, s.contains b = false := by
  constructor
  · intro h b
    have hzero := List.all_eq_true.mp h s.words[(wordIndex b).val] (by simp)
    rw [contains_eq_testBit, beq_iff_eq.mp hzero, UInt32.toNat_zero, Nat.zero_testBit]
  · intro h
    have hempty : ∀ b, empty.contains b = false := by decide
    rw [eq_of_contains fun b => (h b).trans (hempty b).symm]
    rfl

/-- All that a set answers follows from the bits that it contains. -/
lemma represents_of_contains (h : ∀ b, s.contains b = true ↔ b ∈ bits) : s.Represents bits := by
  have hmem (b : FeatureBit) : b ∈ s.toList ↔ b ∈ bits := by
    rw [toList, List.mem_filter, h]
    exact and_iff_right (List.mem_finRange b)
  have hascending : s.toList.Pairwise (· < ·) :=
    (List.pairwise_lt_finRange featureBits).filter s.contains
  have hbits : s.toList.toFinset = bits := by
    ext b
    rw [List.mem_toFinset, hmem]
  refine ⟨h, hmem, hascending, ?_, ?_⟩
  · rw [size_eq_length, ← hbits, List.toFinset_card_of_nodup (hascending.imp Fin.ne_of_lt)]
  · rw [isEmpty_iff_forall, Finset.eq_empty_iff_forall_notMem]
    exact forall_congr' fun b => by rw [← h b, Bool.not_eq_true]

/-- Words stand for the bits that are set in them. -/
lemma represents_mk (words : Vector UInt32 featureWords) : (mk words).Represents (setBits words) :=
  represents_of_contains fun b => by
    rw [contains_eq, setBits, Finset.mem_filter]
    exact (and_iff_right (Finset.mem_univ b)).symm

lemma Represents.insert (h : s.Represents bits) (b : FeatureBit) :
    (s.insert b).Represents (Insert.insert b bits) :=
  represents_of_contains fun b' => by
    rw [contains_insert, h.contains_iff, Finset.mem_insert]

/-- Adding bits one after the other adds them all. -/
lemma Represents.insertAll (h : s.Represents bits) (added : List FeatureBit) :
    (s.insertAll added).Represents (bits ∪ added.toFinset) := by
  induction added generalizing s bits with
  | nil => simpa [FeatureSet.insertAll] using h
  | cons b added ih =>
    have hrest := ih (h.insert b)
    rwa [Finset.insert_union, ← Finset.union_insert, ← List.toFinset_cons] at hrest

/-- A finite set of bits has one set that stands for it. -/
lemma Represents.eq (hs : s.Represents bits) (ht : t.Represents bits) : s = t :=
  eq_of_contains fun b => by rw [Bool.eq_iff_iff, hs.contains_iff, ht.contains_iff]

/-- **A feature set is a finite set of bit numbers.**  What comes of adding bits to some words
stands for the bits that are set in the words or have been added: it contains these, lists them in
increasing order, counts them, and is empty if there are none.  No other set does, its words make
the same set again, and it only matters which bits have been added, not in which order or how
often. -/
theorem represents_insertAll (words : Vector UInt32 featureWords) (added : List FeatureBit) :
    ((mk words).insertAll added).Represents (setBits words ∪ added.toFinset) ∧
      (∀ t : FeatureSet, t.Represents (setBits words ∪ added.toFinset) →
        t = (mk words).insertAll added) ∧
      mk ((mk words).insertAll added).words = (mk words).insertAll added ∧
      ∀ added' : List FeatureBit, (∀ b, b ∈ added' ↔ b ∈ added) →
        (mk words).insertAll added' = (mk words).insertAll added := by
  have hrepresents := (represents_mk words).insertAll
  refine ⟨hrepresents added, fun t ht => ht.eq (hrepresents added), rfl, fun added' hsame => ?_⟩
  have hadded : added'.toFinset = added.toFinset := by
    ext b
    rw [List.mem_toFinset, List.mem_toFinset, hsame]
  exact (hadded ▸ hrepresents added').eq (hrepresents added)

/-- Bits of three words, added in two ways. -/
theorem represents_insertAll_spread :
    empty.insertAll [⟨127, by decide⟩, ⟨3, by decide⟩, ⟨40, by decide⟩, ⟨3, by decide⟩] =
        empty.insertAll [⟨3, by decide⟩, ⟨40, by decide⟩, ⟨127, by decide⟩] ∧
      (empty.insertAll [⟨3, by decide⟩, ⟨40, by decide⟩, ⟨127, by decide⟩]).words.toList =
        [0x8, 0x100, 0, 0x80000000] := by
  obtain ⟨-, -, -, hsame⟩ :=
    represents_insertAll empty.words [⟨3, by decide⟩, ⟨40, by decide⟩, ⟨127, by decide⟩]
  exact ⟨hsame _ (by decide), rfl⟩

end FeatureSet

end TreeCode
