import Mathlib.Tactic.Common
import TreeCode.Proofs.Faults

/-!
# The limits are those of the encodings

The limits of `Isa.branchLimits` count from the address of a jump or call, inclusively.  What is
encoded counts in other ways: from the end of the five bytes on x86-64, in words on AArch64.  Both
say the same about every pair of addresses (`form_eq_direct_iff_encodes`), also where the distance
of the addresses is no signed 64-bit number.
-/

namespace TreeCode

variable {target source : UInt64}

/-! ## x86-64 -/

namespace X64

/-- A jump or call may be direct if the distance from its end fits 32 bits. -/
lemma form_eq_direct_iff : Isa.x64.branchLimits.form target source = .direct ↔
    -2 ^ 31 ≤ (target.toNat : Int) - (source.toNat + 5) ∧
      (target.toNat : Int) - (source.toNat + 5) < 2 ^ 31 := by
  have hf : (Isa.x64.branchLimits.forward.toNat : Int) = 2147483652 := rfl
  have hb : (Isa.x64.branchLimits.backward.toNat : Int) = 2147483643 := rfl
  rw [BranchLimits.form_eq_direct_iff, hf, hb]
  omega

/-- The distance that a direct jump or call holds is the one from its end, with no wrapping. -/
lemma exists_distance_eq (h : Isa.x64.branchLimits.form target source = .direct) :
    ∃ d, distance source target = .ok d ∧ d.toInt = (target.toNat : Int) - (source.toNat + 5) := by
  obtain ⟨d, hd⟩ := exists_distance h
  refine ⟨d, hd, ?_⟩
  obtain ⟨hlow, hhigh⟩ := form_eq_direct_iff.mp h
  have hdlow := d.le_toInt
  have hdhigh := d.toInt_lt
  have hgoal := congrArg UInt64.toNat (add_distance hd)
  have h5 : (5 : UInt64).toNat = 5 := rfl
  rw [UInt64.toNat_add, UInt64.toNat_add, h5, UInt64.ofInt, UInt64.toNat_ofNat'] at hgoal
  omega

/-- The field of a jump can be filled exactly if the jump may be direct. -/
lemma form_eq_direct_iff_fillDirect {base : UInt64} {place goal : Nat}
    (hsource : base.toNat + place = source.toNat) (htarget : base.toNat + goal = target.toNat)
    (code : Array UInt8) :
    Isa.x64.branchLimits.form target source = .direct ↔
      ∃ code', Isa.x64.fillDirect code place goal = .ok code' := by
  rw [form_eq_direct_iff]
  constructor
  · rintro ⟨hlow, hhigh⟩
    have hspans : Isa.x64.Spans place goal := by
      show -2 ^ 31 ≤ (goal : Int) - (place + 5 : Nat) ∧ (goal : Int) - (place + 5 : Nat) < 2 ^ 31
      omega
    exact Isa.exists_fillDirect hspans code
  · rintro ⟨code', h⟩
    simp only [Isa.fillDirect] at h
    split at h
    · omega
    · cases h

end X64

/-! ## AArch64 -/

namespace A64

/-- A jump or call may be direct if the distance in words fits 26 bits. -/
lemma form_eq_direct_iff (hwords : (4 : Int) ∣ (target.toNat : Int) - source.toNat) :
    Isa.aarch64.branchLimits.form target source = .direct ↔
      -2 ^ 25 ≤ ((target.toNat : Int) - source.toNat) / 4 ∧
        ((target.toNat : Int) - source.toNat) / 4 < 2 ^ 25 := by
  have hf : (Isa.aarch64.branchLimits.forward.toNat : Int) = 134217724 := rfl
  have hb : (Isa.aarch64.branchLimits.backward.toNat : Int) = 134217728 := rfl
  rw [BranchLimits.form_eq_direct_iff, hf, hb]
  omega

/-- A jump or call may be direct exactly if the field of 26 bits accepts its distance. -/
lemma form_eq_direct_iff_words (hwords : (4 : Int) ∣ (target.toNat : Int) - source.toNat) :
    Isa.aarch64.branchLimits.form target source = .direct ↔
      ∃ delta : Int64, delta.toInt = (target.toNat : Int) - source.toNat ∧
        ∃ w, words delta = .ok w := by
  rw [form_eq_direct_iff hwords]
  constructor
  · rintro ⟨hlow, hhigh⟩
    have hdelta : (Int64.ofInt ((target.toNat : Int) - source.toNat)).toInt = _ :=
      Int64.toInt_ofInt_of_le (by omega) (by omega)
    exact ⟨_, hdelta, Isa.words_of_spans ⟨hwords, hlow, hhigh⟩⟩
  · rintro ⟨delta, hdelta, w, hw⟩
    obtain ⟨q, -, hlow, hhigh, hq⟩ := words_eq_ok hw
    omega

/-- The field of 26 bits, taken as a signed number of words, is the distance. -/
lemma signedField_of_words {delta : Int64} {w : UInt32} (h : words delta = .ok w) :
    4 * signedField 26 (Inst.branch w).encode.toNat = delta.toInt ∧
      4 * signedField 26 (Inst.call w).encode.toNat = delta.toInt := by
  obtain ⟨q, rfl, hlow, hhigh, hdelta⟩ := words_eq_ok h
  rw [hdelta, signedField_ofInt hlow hhigh (toNat_encode_branch _),
    signedField_ofInt hlow hhigh (toNat_encode_call _)]
  exact ⟨rfl, rfl⟩

end A64

/-! ## Both -/

namespace BranchLimits

/-- What is on the way forward to a place within reach is within reach. -/
lemma reaches_of_le {l : BranchLimits} {bound : UInt64} (h : l.reaches bound source = true)
    (hsource : source ≤ target) (hbound : target ≤ bound) : l.reaches target source = true := by
  rw [UInt64.le_iff_toNat_le] at hsource hbound
  unfold reaches at h ⊢
  rw [if_pos (by omega), decide_eq_true_iff] at h ⊢
  omega

/-- **The limits are those of the encodings.**  On x86-64 a jump or call may be direct if and only
if the distance from its end fits a signed number of 32 bits, which then is the number that it holds
and that the field of an open jump can be filled with.  On AArch64, over a whole number of words, it
may be direct if and only if the field of 26 bits accepts the distance, and the field then means
this distance.  All of this is about addresses as numbers, without wrapping.  Whatever the limits,
all that lies on the way forward to an address within reach is within reach. -/
theorem form_eq_direct_iff_encodes (target source : UInt64) :
    ((Isa.x64.branchLimits.form target source = .direct ↔
        -2 ^ 31 ≤ (target.toNat : Int) - (source.toNat + 5) ∧
          (target.toNat : Int) - (source.toNat + 5) < 2 ^ 31) ∧
      (Isa.x64.branchLimits.form target source = .direct →
        ∃ d, X64.distance source target = .ok d ∧
          d.toInt = (target.toNat : Int) - (source.toNat + 5)) ∧
      ∀ (base : UInt64) (place goal : Nat) (code : Array UInt8),
        base.toNat + place = source.toNat → base.toNat + goal = target.toNat →
          (Isa.x64.branchLimits.form target source = .direct ↔
            ∃ code', Isa.x64.fillDirect code place goal = .ok code')) ∧
    ((4 : Int) ∣ (target.toNat : Int) - source.toNat →
      (Isa.aarch64.branchLimits.form target source = .direct ↔
        ∃ delta : Int64, delta.toInt = (target.toNat : Int) - source.toNat ∧
          ∃ w, A64.words delta = .ok w) ∧
      ∀ (delta : Int64) (w : UInt32), delta.toInt = (target.toNat : Int) - source.toNat →
        A64.words delta = .ok w →
          4 * A64.signedField 26 (A64.Inst.branch w).encode.toNat =
              (target.toNat : Int) - source.toNat ∧
            4 * A64.signedField 26 (A64.Inst.call w).encode.toNat =
              (target.toNat : Int) - source.toNat) ∧
    ∀ (l : BranchLimits) (bound : UInt64), l.reaches bound source = true →
      source ≤ target → target ≤ bound → l.reaches target source = true := by
  refine ⟨⟨X64.form_eq_direct_iff, X64.exists_distance_eq, fun _ _ _ code hsource htarget =>
    X64.form_eq_direct_iff_fillDirect hsource htarget code⟩, fun hwords =>
      ⟨A64.form_eq_direct_iff_words hwords, fun delta w hdelta hw => ?_⟩,
    fun l bound hreach hsource hbound => reaches_of_le hreach hsource hbound⟩
  rw [← hdelta]
  exact A64.signedField_of_words hw

/-- The last address that a jump at 0x1000 reaches on AArch64, and the one behind its reach. -/
theorem form_eq_direct_iff_encodes_edge :
    Isa.aarch64.branchLimits.form 0x8000ffc 0x1000 = .direct ∧
      Isa.aarch64.branchLimits.form 0x8001000 0x1000 = .indirect ∧
      (∃ delta : Int64, delta.toInt = 134217724 ∧ ∃ w, A64.words delta = .ok w) ∧
      ¬ ∃ delta : Int64, delta.toInt = 134217728 ∧ ∃ w, A64.words delta = .ok w := by
  have hlast := (form_eq_direct_iff_encodes 0x8000ffc 0x1000).2.1 (by decide)
  have hbehind := (form_eq_direct_iff_encodes 0x8001000 0x1000).2.1 (by decide)
  refine ⟨rfl, rfl, hlast.1.mp rfl, fun h => ?_⟩
  cases hbehind.1.mpr h

end BranchLimits

end TreeCode
