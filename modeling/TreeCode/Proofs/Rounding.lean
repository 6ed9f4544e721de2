import Mathlib.Algebra.Order.Field.Power
import Mathlib.Data.Int.Log
import Mathlib.Data.Rat.Floor
import Mathlib.Tactic.FieldSimp
import Mathlib.Tactic.Positivity
import Mathlib.Tactic.Ring
import TreeCode.Number.Reading

/-!
# Rounding

Rounding works on quotients of natural numbers, but what it gives depends only on the rational
number (`ofRatio_congr`).  A number that a format holds is rounded to its own bits
(`ofScaled_of_decode`), so that reading any decimal of that value gives the number back.
-/

namespace TreeCode.Number

/-! ## Quotients as rational numbers -/

/-- A quotient in other units is the quotient divided by the unit. -/
lemma inUnits_spec (num : Nat) {den : Nat} (hden : 0 < den) (e : Int) :
    0 < (inUnits num den e).2 ∧
      ((inUnits num den e).1 : ℚ) / (inUnits num den e).2 = (num : ℚ) / den / 2 ^ e := by
  have hpos : (den : ℚ) ≠ 0 := by exact_mod_cast hden.ne'
  cases e with
  | ofNat k =>
    refine ⟨Nat.mul_pos hden (Nat.pow_pos (by decide)), ?_⟩
    simp only [inUnits, Nat.pow_eq, Int.ofNat_eq_natCast, zpow_natCast]
    push_cast
    field_simp
  | negSucc k =>
    refine ⟨hden, ?_⟩
    simp only [inUnits, Nat.pow_eq, zpow_negSucc]
    push_cast
    field_simp

/-- The logarithm of a rational number from the powers around it. -/
lemma log_eq_of_zpow_le {b : Nat} (hb : 1 < b) {q : ℚ} {k : Int} (hlow : (b : ℚ) ^ k ≤ q)
    (hhigh : q < (b : ℚ) ^ (k + 1)) : Int.log b q = k := by
  have hq : 0 < q := lt_of_lt_of_le (zpow_pos (by exact_mod_cast (by omega : 0 < b)) k) hlow
  exact le_antisymm (Int.le_of_lt_add_one ((Int.lt_zpow_iff_log_lt hb hq).mp hhigh))
    ((Int.zpow_le_iff_le_log hb hq).mp hlow)

/-- The binary logarithm of a number lies between two powers of two. -/
lemma zpow_log2_le {n : Nat} (hn : 0 < n) :
    (2 : ℚ) ^ (n.log2 : Int) ≤ n ∧ (n : ℚ) < 2 ^ ((n.log2 : Int) + 1) := by
  constructor
  · rw [zpow_natCast]
    exact_mod_cast Nat.log2_self_le hn.ne'
  · rw [← Nat.cast_succ, zpow_natCast]
    exact_mod_cast Nat.lt_log2_self

/-- The binary logarithm of a quotient is that of the rational number. -/
lemma floorLog2_eq {num den : Nat} (hnum : 0 < num) (hden : 0 < den) :
    floorLog2 num den = Int.log 2 ((num : ℚ) / den) := by
  have hd : (0 : ℚ) < den := by exact_mod_cast hden
  obtain ⟨hnlow, hnhigh⟩ := zpow_log2_le hnum
  obtain ⟨hdlow, hdhigh⟩ := zpow_log2_le hden
  -- The logarithms of the two parts leave two candidates.
  have hlow : (2 : ℚ) ^ ((num.log2 : Int) - den.log2 - 1) ≤ (num : ℚ) / den := by
    rw [le_div_iff₀ hd]
    calc (2 : ℚ) ^ ((num.log2 : Int) - den.log2 - 1) * den
        ≤ 2 ^ ((num.log2 : Int) - den.log2 - 1) * 2 ^ ((den.log2 : Int) + 1) :=
          mul_le_mul_of_nonneg_left hdhigh.le (by positivity)
      _ = 2 ^ (num.log2 : Int) := by
          rw [← zpow_add₀ (by norm_num : (2 : ℚ) ≠ 0)]
          congr 1
          ring
      _ ≤ num := hnlow
  have hhigh : (num : ℚ) / den < 2 ^ ((num.log2 : Int) - den.log2 + 1) := by
    rw [div_lt_iff₀ hd]
    calc (num : ℚ) < 2 ^ ((num.log2 : Int) + 1) := hnhigh
      _ = 2 ^ ((num.log2 : Int) - den.log2 + 1) * 2 ^ (den.log2 : Int) := by
          rw [← zpow_add₀ (by norm_num : (2 : ℚ) ≠ 0)]
          congr 1
          ring
      _ ≤ 2 ^ ((num.log2 : Int) - den.log2 + 1) * den :=
          mul_le_mul_of_nonneg_left hdlow (by positivity)
  obtain ⟨hpos, hvalue⟩ := inUnits_spec num hden ((num.log2 : Int) - den.log2)
  have hchoice : (inUnits num den ((num.log2 : Int) - den.log2)).2 ≤
      (inUnits num den ((num.log2 : Int) - den.log2)).1 ↔
        (2 : ℚ) ^ ((num.log2 : Int) - den.log2) ≤ (num : ℚ) / den := by
    have hunit : (0 : ℚ) < 2 ^ ((num.log2 : Int) - den.log2) := by positivity
    have hpos' : (0 : ℚ) < (inUnits num den ((num.log2 : Int) - den.log2)).2 := by
      exact_mod_cast hpos
    rw [← one_le_div₀ hunit, ← hvalue, one_le_div₀ hpos', Nat.cast_le]
  simp only [floorLog2]
  by_cases hle : (2 : ℚ) ^ ((num.log2 : Int) - den.log2) ≤ (num : ℚ) / den
  · rw [if_pos (hchoice.mpr hle)]
    exact (log_eq_of_zpow_le (by decide) (by exact_mod_cast hle) (by exact_mod_cast hhigh)).symm
  · rw [if_neg (hchoice.not.mpr hle)]
    refine (log_eq_of_zpow_le (by decide) (by exact_mod_cast hlow) ?_).symm
    rw [sub_add_cancel]
    exact_mod_cast not_le.mp hle

/-! ## Rounding to the nearest -/

lemma divNearestEven_mul {num den c : Nat} (hc : 0 < c) :
    divNearestEven (num * c) (den * c) = divNearestEven num den := by
  have hleft : 2 * (num % den * c) < den * c ↔ 2 * (num % den) < den := by
    rw [← Nat.mul_assoc]
    exact Nat.mul_lt_mul_right hc
  have hright : den * c < 2 * (num % den * c) ↔ den < 2 * (num % den) := by
    rw [← Nat.mul_assoc]
    exact Nat.mul_lt_mul_right hc
  simp only [divNearestEven, Nat.mul_div_mul_right _ _ hc, Nat.mul_mod_mul_right, hleft, hright]

/-- Rounding depends only on the rational number. -/
lemma divNearestEven_congr {num den num' den' : Nat} (hden : 0 < den) (hden' : 0 < den')
    (h : (num : ℚ) / den = (num' : ℚ) / den') :
    divNearestEven num den = divNearestEven num' den' := by
  have hcross : num * den' = num' * den := by
    rw [div_eq_div_iff (by exact_mod_cast hden.ne') (by exact_mod_cast hden'.ne')] at h
    exact_mod_cast h
  rw [← divNearestEven_mul hden', hcross, Nat.mul_comm den, divNearestEven_mul hden]

lemma divNearestEven_of_eq {num den m : Nat} (hden : 0 < den) (h : (num : ℚ) / den = m) :
    divNearestEven num den = m := by
  have hone : divNearestEven m 1 = m := by simp [divNearestEven, Nat.mod_one]
  rw [← hone]
  refine divNearestEven_congr hden (by decide) ?_
  rw [h, Nat.cast_one, div_one]

namespace BinaryFormat

variable {f : BinaryFormat} {num den num' den' : Nat}

/-- The bits of a quotient depend only on the rational number. -/
lemma ofRatio_congr (hden : 0 < den) (hden' : 0 < den')
    (h : (num : ℚ) / den = (num' : ℚ) / den') : f.ofRatio num den = f.ofRatio num' den' := by
  by_cases hnum : num = 0
  · have hnum' : num' = 0 := by
      rw [hnum, Nat.cast_zero, zero_div, eq_comm, div_eq_zero_iff] at h
      rcases h with h | h
      · exact_mod_cast h
      · exact absurd (by exact_mod_cast h) hden'.ne'
    rw [hnum, hnum', ofRatio, ofRatio, if_pos rfl, if_pos rfl]
  · have hnum' : num' ≠ 0 := by
      rintro rfl
      rw [Nat.cast_zero, zero_div, div_eq_zero_iff] at h
      rcases h with h | h
      · exact hnum (by exact_mod_cast h)
      · exact hden.ne' (by exact_mod_cast h)
    have hlog : floorLog2 num den = floorLog2 num' den' := by
      rw [floorLog2_eq (Nat.pos_of_ne_zero hnum) hden, h,
        floorLog2_eq (Nat.pos_of_ne_zero hnum') hden']
    have hunits (e : Int) : divNearestEven (inUnits num den e).1 (inUnits num den e).2 =
        divNearestEven (inUnits num' den' e).1 (inUnits num' den' e).2 := by
      obtain ⟨hpos, hvalue⟩ := inUnits_spec num hden e
      obtain ⟨hpos', hvalue'⟩ := inUnits_spec num' hden' e
      refine divNearestEven_congr hpos hpos' ?_
      rw [hvalue, hvalue', h]
    simp only [ofRatio, if_neg hnum, if_neg hnum', hlog, hunits]

/-- A significand times a power of two as a rational number. -/
lemma exists_ofScaled (f : BinaryFormat) (m : Nat) (e : Int) : ∃ num den : Nat, 0 < den ∧
    (num : ℚ) / den = m * 2 ^ e ∧ f.ofScaled m e = f.ofRatio num den := by
  cases e with
  | ofNat k =>
    refine ⟨m * Nat.pow 2 k, 1, by decide, ?_, rfl⟩
    simp only [Nat.pow_eq, Int.ofNat_eq_natCast, zpow_natCast]
    push_cast
    rw [div_one]
  | negSucc k =>
    refine ⟨m, Nat.pow 2 (k + 1), Nat.pow_pos (by decide), ?_, rfl⟩
    simp only [Nat.pow_eq, zpow_negSucc]
    push_cast
    rw [div_eq_mul_inv]

/-- A number that fits the significand is rounded to itself. -/
lemma ofScaled_eq {m : Nat} {e : Int} (hm : 0 < m) (hwidth : m < 2 ^ (f.fractionBits + 1))
    (hleast : f.leastExponent ≤ e) (hnormal : e = f.leastExponent ∨ 2 ^ f.fractionBits ≤ m) :
    f.ofScaled m e = min ((e - f.leastExponent).toNat * 2 ^ f.fractionBits + m) f.infinity := by
  obtain ⟨num, den, hden, hvalue, heq⟩ := f.exists_ofScaled m e
  have hnum : num ≠ 0 := by
    rintro rfl
    rw [Nat.cast_zero, zero_div, eq_comm, mul_eq_zero] at hvalue
    rcases hvalue with h | h
    · exact hm.ne' (by exact_mod_cast h)
    · exact (zpow_ne_zero e (by norm_num)) h
  have hlog : floorLog2 num den = (m.log2 : Int) + e := by
    obtain ⟨hlow, hhigh⟩ := zpow_log2_le hm
    rw [floorLog2_eq (Nat.pos_of_ne_zero hnum) hden, hvalue]
    refine log_eq_of_zpow_le (by decide) ?_ ?_
    · rw [Nat.cast_ofNat, zpow_add₀ (by norm_num : (2 : ℚ) ≠ 0)]
      exact mul_le_mul_of_nonneg_right hlow (by positivity)
    · rw [add_right_comm, Nat.cast_ofNat, zpow_add₀ (by norm_num : (2 : ℚ) ≠ 0)]
      exact mul_lt_mul_of_pos_right hhigh (by positivity)
  have hunit : max f.leastExponent (floorLog2 num den - f.fractionBits) = e := by
    have hlt := (Nat.log2_lt hm.ne').mpr hwidth
    rw [hlog]
    rcases hnormal with hsmall | hlarge
    · omega
    · have hle := (Nat.le_log2 hm.ne').mpr hlarge
      omega
  obtain ⟨hpos', hunits⟩ := inUnits_spec num hden e
  have hdiv : divNearestEven (inUnits num den e).1 (inUnits num den e).2 = m := by
    refine divNearestEven_of_eq hpos' ?_
    rw [hunits, hvalue, mul_div_assoc, div_self (zpow_ne_zero e (by norm_num)), mul_one]
  rw [heq, ofRatio, if_neg hnum]
  simp only [hunit, hdiv, Nat.pow_eq]

/-- The significands and exponents of finite numbers. -/
lemma range_of_decode {bits m : Nat} {negative : Bool} {e : Int}
    (h : f.decode bits = .finite negative m e) :
    m < 2 ^ (f.fractionBits + 1) ∧ f.leastExponent ≤ e ∧
      e ≤ f.leastExponent + (2 ^ f.exponentBits : Nat) := by
  have hfraction := Nat.mod_lt (bits % f.signBit) (Nat.two_pow_pos f.fractionBits)
  have hwidth := Nat.pow_succ 2 f.fractionBits
  simp only [decode, infinity, Nat.pow_eq] at h
  split at h
  · cases h
  split at h
  · cases h
  rename_i hnan hinfinite
  have hfield : bits % f.signBit / 2 ^ f.fractionBits < 2 ^ f.exponentBits :=
    (Nat.div_lt_iff_lt_mul (Nat.two_pow_pos _)).mpr
      (Nat.lt_of_le_of_lt (not_lt.mp hnan) ((Nat.mul_lt_mul_right (Nat.two_pow_pos _)).mpr
        (Nat.sub_lt (Nat.two_pow_pos _) Nat.one_pos)))
  split at h
  · obtain ⟨-, rfl, rfl⟩ := Numeral.finite.inj h
    omega
  · obtain ⟨-, rfl, rfl⟩ := Numeral.finite.inj h
    generalize bits % f.signBit / 2 ^ f.fractionBits = field at *
    omega

lemma ofScaled_zero (e : Int) : f.ofScaled 0 e = 0 := by
  cases e <;> simp [ofScaled, ofRatio]

/-- **A finite number is rounded to its own bits.** -/
theorem ofScaled_of_decode {bits m : Nat} {negative : Bool} {e : Int}
    (h : f.decode bits = .finite negative m e) : f.ofScaled m e = bits % f.signBit := by
  have hsplit := Nat.div_add_mod (bits % f.signBit) (2 ^ f.fractionBits)
  have hfraction := Nat.mod_lt (bits % f.signBit) (Nat.two_pow_pos f.fractionBits)
  have hwidth := Nat.pow_succ 2 f.fractionBits
  simp only [decode, Nat.pow_eq] at h
  split at h
  · cases h
  split at h
  · cases h
  rename_i hnan hinfinite
  have hmin : min (bits % f.signBit) f.infinity = bits % f.signBit := by omega
  split at h
  · -- Without an exponent the fraction counts the least unit.
    rename_i hfield
    obtain ⟨-, rfl, rfl⟩ := Numeral.finite.inj h
    rw [hfield, Nat.mul_zero, Nat.zero_add] at hsplit
    rw [hsplit] at hfraction ⊢
    rcases Nat.eq_zero_or_pos (bits % f.signBit) with hzero | hpos
    · rw [hzero, ofScaled_zero]
    · rw [ofScaled_eq hpos (by omega) le_rfl (.inl rfl), sub_self, Int.toNat_zero, Nat.zero_mul,
        Nat.zero_add, hmin]
  · rename_i hfield
    obtain ⟨-, rfl, rfl⟩ := Numeral.finite.inj h
    obtain ⟨k, hk⟩ := Nat.exists_eq_succ_of_ne_zero hfield
    rw [hk, Nat.mul_succ] at hsplit
    have hunit : ((k.succ : Nat) : Int) - 1 = k := by omega
    rw [hk, hunit, ofScaled_eq (by omega) (by omega) (by omega) (.inr (by omega)),
      add_sub_cancel_left, Int.toNat_natCast, Nat.mul_comm k, ← Nat.add_assoc, hsplit, hmin]

end BinaryFormat

end TreeCode.Number
