import Mathlib.Algebra.Ring.Nat
import Mathlib.Tactic.Common
import TreeCode.Bytes

/-!
# Bytes within code

Code that is cut in three: what it means to read or replace the bytes in the middle.
-/

namespace TreeCode

/-- The bytes of a word are read as the word. -/
lemma ofLittleEndian_wordBytes (w : UInt32) : ofLittleEndian (wordBytes w) = w.toNat := by
  rw [wordBytes, ofLittleEndian_littleEndian]
  exact Nat.mod_eq_of_lt w.toNat_lt

lemma ofLittleEndian_doubleWordBytes (w : UInt64) :
    ofLittleEndian (doubleWordBytes w) = w.toNat := by
  rw [doubleWordBytes, ofLittleEndian_littleEndian]
  exact Nat.mod_eq_of_lt w.toNat_lt

@[simp] lemma length_wordBytes (w : UInt32) : (wordBytes w).length = 4 := length_littleEndian _ _

@[simp] lemma length_doubleWordBytes (w : UInt64) : (doubleWordBytes w).length = 8 :=
  length_littleEndian _ _

variable {code : Array UInt8} {front old new back : List UInt8} {place : Nat}

/-- Replacing the bytes between two parts of code. -/
lemma toList_patch (hplace : place = front.length) (hcode : code.toList = front ++ old ++ back)
    (hlength : new.length = old.length) :
    (patch code place new).toList = front ++ new ++ back := by
  subst hplace
  induction new generalizing code front old with
  | nil =>
    obtain rfl := List.length_eq_zero_iff.mp hlength.symm
    exact hcode
  | cons b bs ih =>
    obtain ⟨o, os, rfl⟩ := List.exists_cons_of_length_eq_add_one hlength.symm
    have hset : (code.setIfInBounds front.length b).toList = front ++ [b] ++ os ++ back := by
      rw [Array.toList_setIfInBounds, hcode]
      simp
    have hnext := @ih _ (front ++ [b]) os hset (Nat.succ.inj hlength)
    rw [List.length_append, List.length_singleton] at hnext
    rw [patch, hnext, List.append_assoc front, List.singleton_append]

/-- Reading the bytes between two parts of code. -/
lemma slice_eq (hplace : place = front.length) (hcode : code.toList = front ++ old ++ back) :
    slice code place old.length = old := by
  subst hplace
  rw [slice, Array.toList_extract, hcode]
  simp

lemma wordAt_eq {w : UInt32} (hplace : place = front.length)
    (hcode : code.toList = front ++ wordBytes w ++ back) : wordAt code place = w := by
  have hslice : slice code place 4 = wordBytes w := slice_eq hplace hcode
  rw [wordAt, hslice, ofLittleEndian_wordBytes, UInt32.ofNat_toNat]

end TreeCode
