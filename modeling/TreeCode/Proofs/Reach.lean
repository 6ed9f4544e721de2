import Mathlib.Tactic.Common
import TreeCode.Assembly
import TreeCode.Proofs.Finishing

/-!
# What direct jumps reach

Whether a jump may be direct is decided by the distance of two addresses.  Within code that has
addresses this is a matter of places alone (`form_eq_direct_iff`), and what the decision lets
through has an encoding (`exists_jump`, `exists_fillDirect`), as long as the places are those of
instructions.  A jump forward that reaches the end of the room reaches every place before it
(`spans_of_form`).
-/

namespace TreeCode

open Isa (address)

/-! ## Decisions -/

namespace BranchLimits

variable {l : BranchLimits} {target source : UInt64}

lemma form_eq_direct_iff : l.form target source = .direct ↔
    (target.toNat : Int) - source.toNat ≤ l.forward.toNat ∧
      (source.toNat : Int) - target.toNat ≤ l.backward.toNat := by
  unfold form reaches
  by_cases hforward : (0 : Int) ≤ (target.toNat : Int) - source.toNat
  · rw [if_pos hforward]
    simp only [decide_eq_true_eq, ite_eq_left_iff, reduceCtorEq, imp_false, not_not]
    omega
  · rw [if_neg hforward]
    simp only [decide_eq_true_eq, ite_eq_left_iff, reduceCtorEq, imp_false, not_not]
    omega

end BranchLimits

namespace Isa

variable {isa : Isa} {base : UInt64} {place target bound : Nat}

lemma toNat_address {offset : Nat} (h : base.toNat + offset < wordRange) :
    (address base offset).toNat = base.toNat + offset := by
  unfold wordRange at h
  rw [address, UInt64.toNat_add, UInt64.toNat_ofNat']
  omega

/-- What the places of instructions are multiples of. -/
def alignment : Isa → Nat
  | x64 => 1
  | aarch64 => 4

/-- Whether a direct jump from one place of the code to another has an encoding: the distance from
its end fits 32 bits, or, on AArch64, the distance is a number of words that fits 26 bits. -/
def Spans (isa : Isa) (place target : Nat) : Prop :=
  match isa with
  | x64 => -2 ^ 31 ≤ (target : Int) - (place + 5 : Nat) ∧
      (target : Int) - (place + 5 : Nat) < 2 ^ 31
  | aarch64 => (4 : Int) ∣ (target : Int) - place ∧
      -2 ^ 25 ≤ ((target : Int) - place) / 4 ∧ ((target : Int) - place) / 4 < 2 ^ 25

/-- What is taken to be within reach is, and so are the places on the way there. -/
lemma spans_of_form (hplace : base.toNat + place < wordRange)
    (hbound : base.toNat + bound < wordRange)
    (hform : isa.branchLimits.form (address base bound) (address base place) = .direct)
    (htarget : target = bound ∨ place ≤ target ∧ target ≤ bound)
    (hplaces : isa.alignment ∣ place) (htargets : isa.alignment ∣ target) :
    isa.Spans place target := by
  obtain ⟨hforward, hbackward⟩ := BranchLimits.form_eq_direct_iff.mp hform
  rw [toNat_address hplace, toNat_address hbound] at hforward hbackward
  cases isa with
  | x64 =>
    have hf : (x64.branchLimits.forward.toNat : Int) = 2147483652 := rfl
    have hb : (x64.branchLimits.backward.toNat : Int) = 2147483643 := rfl
    rw [hf] at hforward
    rw [hb] at hbackward
    show -2 ^ 31 ≤ (target : Int) - (place + 5 : Nat) ∧ (target : Int) - (place + 5 : Nat) < 2 ^ 31
    omega
  | aarch64 =>
    have hf : (aarch64.branchLimits.forward.toNat : Int) = 134217724 := rfl
    have hb : (aarch64.branchLimits.backward.toNat : Int) = 134217728 := rfl
    rw [hf] at hforward
    rw [hb] at hbackward
    have h4 : aarch64.alignment = 4 := rfl
    rw [h4] at hplaces htargets
    show (4 : Int) ∣ (target : Int) - place ∧
      -2 ^ 25 ≤ ((target : Int) - place) / 4 ∧ ((target : Int) - place) / 4 < 2 ^ 25
    omega

/-! ## Encodings -/

lemma words_of_spans (h : aarch64.Spans place target) :
    ∃ w, A64.words (Int64.ofInt ((target : Int) - place)) = .ok w := by
  obtain ⟨hdvd, hlow, hhigh⟩ := h
  have hd : (Int64.ofInt ((target : Int) - place)).toInt = (target : Int) - place :=
    Int64.toInt_ofInt_of_le (by omega) (by omega)
  have htdiv := Int.tdiv_eq_ediv_of_dvd hdvd
  refine ⟨UInt32.ofInt (((target : Int) - place).tdiv 4), ?_⟩
  simp only [A64.words, hd]
  rw [if_pos ⟨Int.tmod_eq_zero_of_dvd hdvd, by omega, by omega⟩]

lemma exists_jump (h : isa.Spans place target) :
    ∃ bytes, isa.jump base .direct place target = .ok bytes := by
  cases isa with
  | x64 =>
    have hdistance : X64.distance (address base place) (address base target) = .ok _ :=
      distance_eq_ok (d := (target : Int) - (place + 5 : Nat)) h.1 (Int.le_of_lt_add_one h.2) rfl
    exact ⟨_, by rw [jump, hdistance]; rfl⟩
  | aarch64 =>
    obtain ⟨w, hw⟩ := words_of_spans h
    exact ⟨_, by rw [jump, hw]; rfl⟩

lemma exists_fillDirect (h : isa.Spans place target) (code : Array UInt8) :
    ∃ code', isa.fillDirect code place target = .ok code' := by
  cases isa with
  | x64 =>
    have hrange : -2147483648 ≤ (target : Int) - (place + 1 + 4 : Nat) ∧
        (target : Int) - (place + 1 + 4 : Nat) ≤ 2147483647 := ⟨h.1, Int.le_of_lt_add_one h.2⟩
    exact ⟨_, by rw [fillDirect, if_pos hrange]⟩
  | aarch64 =>
    obtain ⟨w, hw⟩ := words_of_spans h
    exact ⟨_, by rw [fillDirect, hw]; rfl⟩

end Isa

end TreeCode
