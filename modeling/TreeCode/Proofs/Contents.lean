import Mathlib.Algebra.Ring.Nat
import Mathlib.Tactic.Common
import TreeCode.Bytes

/-!
# Contents of registers and of the frame

A register or the frame is a row of bytes, of which some are read and written at a time.
-/

namespace TreeCode

/-- A byte at every place of a register or of the frame.  How many of them there really are is for
those to say who read and write them. -/
abbrev Contents := Nat → UInt8

namespace Contents

/-- The `count` bytes from a place on. -/
def read (s : Contents) (start count : Nat) : List UInt8 :=
  (List.range count).map fun i => s (start + i)

/-- Replaces the bytes from a place on. -/
def write (s : Contents) (start : Nat) (bytes : List UInt8) : Contents := fun i =>
  if start ≤ i then bytes.getD (i - start) (s i) else s i

variable {s t : Contents} {start count i : Nat} {bytes : List UInt8}

@[simp] lemma length_read : (s.read start count).length = count := by
  simp [read]

@[simp] lemma getElem_read (h : i < (s.read start count).length) :
    (s.read start count)[i] = s (start + i) := by
  simp [read]

lemma read_congr {start' : Nat} (h : ∀ i < count, s (start + i) = t (start' + i)) :
    s.read start count = t.read start' count := by
  refine List.map_congr_left fun i hi => h i (List.mem_range.mp hi)

/-- Contents that agree on many bytes agree on fewer. -/
lemma read_congr_of_le {start' more : Nat} (h : s.read start more = t.read start' more)
    (hcount : count ≤ more) : s.read start count = t.read start' count := by
  refine read_congr fun i hi => ?_
  have hi' : i < (s.read start more).length := by simpa using Nat.lt_of_lt_of_le hi hcount
  have hbyte := List.getElem_of_eq h hi'
  simpa using hbyte

lemma take_read {n : Nat} (h : n ≤ count) : (s.read start count).take n = s.read start n := by
  refine List.ext_getElem (by simp [h]) fun i hi hi' => ?_
  simp

lemma drop_read {n : Nat} :
    (s.read start count).drop n = s.read (start + n) (count - n) := by
  refine List.ext_getElem (by simp) fun i hi hi' => ?_
  simp [Nat.add_assoc]

lemma read_add {n m : Nat} :
    s.read start (n + m) = s.read start n ++ s.read (start + n) m := by
  simp only [read, List.range_add, List.map_append, List.map_map]
  congr 1
  refine List.map_congr_left fun i _ => ?_
  simp [Nat.add_assoc]

lemma write_of_lt (h : i < start) : s.write start bytes i = s i := by
  simp [write, Nat.not_le.mpr h]

lemma write_of_ge (h : start + bytes.length ≤ i) : s.write start bytes i = s i := by
  have hlength : bytes.length ≤ i - start := by omega
  simp [write, List.getD, List.getElem?_eq_none hlength]

lemma write_add (h : i < bytes.length) : s.write start bytes (start + i) = bytes[i] := by
  simp [write, List.getD, h]

/-- What was written is read. -/
@[simp] lemma read_write : (s.write start bytes).read start bytes.length = bytes := by
  refine List.ext_getElem (by simp) fun i hi hi' => ?_
  rw [getElem_read, write_add hi']

lemma read_write_of_length (h : bytes.length = count) :
    (s.write start bytes).read start count = bytes := by
  rw [← h, read_write]

lemma read_write_of_le (h : count ≤ bytes.length) :
    (s.write start bytes).read start count = bytes.take count := by
  rw [← take_read h, read_write]

/-- Bytes elsewhere are as before. -/
lemma read_write_of_disjoint {place : Nat}
    (h : place + count ≤ start ∨ start + bytes.length ≤ place) :
    (s.write start bytes).read place count = s.read place count := by
  refine read_congr fun i hi => ?_
  rcases h with h | h
  · exact write_of_lt (by omega)
  · exact write_of_ge (by omega)

end Contents

end TreeCode
