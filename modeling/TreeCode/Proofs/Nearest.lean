import Mathlib.Tactic.Linarith
import TreeCode.Proofs.Rounding

/-!
# The nearest number

What a format rounds a rational number to is nearer to it than any other number of the format; of
two numbers that are equally near it is the even one (`BinaryFormat.isNearest_ofRatio`).  So
integers become the nearest numbers of the 64-bit format (`isNearest_ofInt`).
-/

namespace TreeCode.Number

/-- The rational number that is meant, if it is finite. -/
def Numeral.value? : Numeral → Option ℚ
  | .finite negative m e => some ((if negative then -(m : ℚ) else m) * 2 ^ e)
  | _ => none

/-- The bits are those of a finite number, and every other finite number of the format is farther
from `q`, or as far and the bits are even. -/
def BinaryFormat.IsNearest (f : BinaryFormat) (bits : Nat) (q : ℚ) : Prop :=
  ∃ v, (f.decode bits).value? = some v ∧ ∀ other w, (f.decode other).value? = some w →
    w = v ∨ |v - q| < |w - q| ∨ |v - q| = |w - q| ∧ bits % 2 = 0

/-! ## The nearest integer -/

variable {num den : Nat}

/-- Integers on both sides of a quotient are on the same sides of what it is rounded to. -/
lemma divNearestEven_le (hden : 0 < den) {k : Nat} (h : num ≤ k * den) :
    divNearestEven num den ≤ k := by
  have hmod := Nat.mod_lt num hden
  have hdiv := Nat.div_add_mod num den
  have hle : num / den ≤ k := by
    rw [Nat.div_le_iff_le_mul hden]
    omega
  unfold divNearestEven
  dsimp only
  by_cases heq : num / den = k
  · have hmul : den * (num / den) = k * den := by rw [heq, Nat.mul_comm]
    have hzero : num % den = 0 := by omega
    rw [if_pos (by omega)]
    exact hle
  · split
    · exact hle
    · split
      · omega
      · split <;> omega

lemma le_divNearestEven (hden : 0 < den) {k : Nat} (h : k * den ≤ num) :
    k ≤ divNearestEven num den := by
  have hle : k ≤ num / den := (Nat.le_div_iff_mul_le hden).mpr h
  unfold divNearestEven
  dsimp only
  split
  · exact hle
  · split
    · omega
    · split <;> omega

/-- What a quotient is rounded to is no farther than a half from it, and even if it is a half. -/
lemma abs_divNearestEven_sub (num : Nat) (hden : 0 < den) :
    |(divNearestEven num den : ℚ) - num / den| < 1 / 2 ∨
      |(divNearestEven num den : ℚ) - num / den| = 1 / 2 ∧ divNearestEven num den % 2 = 0 := by
  have hd : (0 : ℚ) < den := by exact_mod_cast hden
  have hsplit : (num : ℚ) / den = (num / den : Nat) + (num % den : Nat) / (den : ℚ) := by
    rw [eq_comm, ← mul_div_cancel_left₀ ((num / den : Nat) : ℚ) hd.ne', ← add_div]
    congr 1
    exact_mod_cast Nat.div_add_mod num den
  have hbelow : |((num / den : Nat) : ℚ) - num / den| = (num % den : Nat) / (den : ℚ) := by
    rw [hsplit, sub_add_cancel_left, abs_neg, abs_of_nonneg (by positivity)]
  have habove : |((num / den + 1 : Nat) : ℚ) - num / den| = 1 - (num % den : Nat) / (den : ℚ) := by
    have hlt : ((num % den : Nat) : ℚ) / den < 1 := by
      rw [div_lt_one hd]
      exact_mod_cast Nat.mod_lt num hden
    rw [hsplit, Nat.cast_succ, add_sub_add_left_eq_sub, abs_of_pos (sub_pos.mpr hlt)]
  have hhalf : 2 * (num % den) < den ↔ ((num % den : Nat) : ℚ) / den < 1 / 2 := by
    rw [div_lt_div_iff₀ hd two_pos]
    norm_cast
    omega
  have hhalf' : den < 2 * (num % den) ↔ 1 / 2 < ((num % den : Nat) : ℚ) / den := by
    rw [div_lt_div_iff₀ two_pos hd]
    norm_cast
    omega
  unfold divNearestEven
  dsimp only
  by_cases hlow : 2 * (num % den) < den
  · rw [if_pos hlow, hbelow]
    exact .inl (hhalf.mp hlow)
  rw [if_neg hlow]
  by_cases hhigh : den < 2 * (num % den)
  · rw [if_pos hhigh, habove]
    have hr := hhalf'.mp hhigh
    exact .inl (by linarith)
  · have hr : ((num % den : Nat) : ℚ) / den = 1 / 2 :=
      le_antisymm (not_lt.mp (hhalf'.not.mp hhigh)) (not_lt.mp (hhalf.not.mp hlow))
    rw [if_neg hhigh]
    right
    split
    · rename_i heven
      exact ⟨by rw [hbelow, hr], heven⟩
    · rename_i hodd
      exact ⟨by rw [habove, hr]; norm_num, by omega⟩

/-- A quotient is rounded to the nearest integer. -/
lemma divNearestEven_nearest (num : Nat) (hden : 0 < den) (k : Int) :
    k = divNearestEven num den ∨
      |(divNearestEven num den : ℚ) - num / den| < |(k : ℚ) - num / den| ∨
        |(divNearestEven num den : ℚ) - num / den| = |(k : ℚ) - num / den| ∧
          divNearestEven num den % 2 = 0 := by
  by_cases hk : k = divNearestEven num den
  · exact .inl hk
  have hone : (1 : ℚ) ≤ |(k : ℚ) - divNearestEven num den| := by
    have hne : k - divNearestEven num den ≠ 0 := sub_ne_zero.mpr hk
    have hcast : |(k : ℚ) - divNearestEven num den| =
        ((|k - divNearestEven num den| : Int) : ℚ) := by
      push_cast
      rfl
    rw [hcast]
    exact_mod_cast Int.one_le_abs hne
  have htriangle := abs_sub_le (k : ℚ) (num / den) (divNearestEven num den)
  rw [abs_sub_comm ((num : ℚ) / den)] at htriangle
  right
  rcases abs_divNearestEven_sub num hden with hlt | ⟨heq, heven⟩
  · exact .inl (by linarith)
  · have hle : |(divNearestEven num den : ℚ) - num / den| ≤ |(k : ℚ) - num / den| := by linarith
    rcases lt_or_eq_of_le hle with hlt | heq'
    · exact .inl hlt
    · exact .inr ⟨heq', heven⟩

lemma abs_divNearestEven_sub_le (num : Nat) (hden : 0 < den) (k : Int) :
    |(divNearestEven num den : ℚ) - num / den| ≤ |(k : ℚ) - num / den| := by
  rcases divNearestEven_nearest num hden k with heq | hlt | ⟨heq, -⟩
  · rw [heq, Int.cast_natCast]
  · exact hlt.le
  · exact heq.le

/-- A unit that is not too small for a quotient leaves no more digits than a significand has. -/
lemma inUnits_le {p : Nat} {e : Int} (hnum : 0 < num) (hden : 0 < den)
    (he : floorLog2 num den - p ≤ e) :
    (inUnits num den e).1 ≤ 2 ^ (p + 1) * (inUnits num den e).2 := by
  have hpos : (0 : ℚ) < 2 ^ e := by positivity
  obtain ⟨hd, hvalue⟩ := inUnits_spec num hden e
  have hhigh : (num : ℚ) / den < 2 ^ (floorLog2 num den + 1) := by
    rw [floorLog2_eq hnum hden]
    exact_mod_cast Int.lt_zpow_succ_log_self (b := 2) (by decide) ((num : ℚ) / den)
  have hle : (num : ℚ) / den ≤ 2 ^ (p + 1) * 2 ^ e := by
    calc (num : ℚ) / den ≤ 2 ^ (floorLog2 num den + 1) := hhigh.le
      _ ≤ 2 ^ (((p + 1 : Nat) : Int) + e) := zpow_le_zpow_right₀ (by norm_num) (by omega)
      _ = 2 ^ (p + 1) * 2 ^ e := by rw [zpow_add₀ (by norm_num), zpow_natCast]
  have hle' := (div_le_iff₀ hpos).mpr hle
  rw [← hvalue, div_le_iff₀ (by exact_mod_cast hd)] at hle'
  exact_mod_cast hle'

/-! ## The nearest number of a format -/

namespace BinaryFormat

variable {f : BinaryFormat} {bits s k : Nat} {q : ℚ}

lemma signBit_eq (f : BinaryFormat) :
    f.signBit = 2 ^ f.exponentBits * 2 ^ f.fractionBits := by
  rw [signBit, Nat.pow_eq, Nat.add_comm, Nat.pow_add]

lemma infinity_lt (f : BinaryFormat) : f.infinity < f.signBit := by
  rw [signBit_eq, infinity, Nat.pow_eq]
  exact (Nat.mul_lt_mul_right (Nat.two_pow_pos _)).mpr (Nat.sub_lt (Nat.two_pow_pos _) Nat.one_pos)

/-- The value of bits in which a significand is put on top of an exponent.  A significand that has
been rounded up to the next power of two is that of the next exponent. -/
lemma value?_decode (hbits : bits = k * 2 ^ f.fractionBits + s)
    (hwidth : s ≤ 2 ^ (f.fractionBits + 1)) (hnormal : k = 0 ∨ 2 ^ f.fractionBits ≤ s)
    (hfinite : bits < f.infinity) :
    (f.decode bits).value? = some ((s : ℚ) * 2 ^ (f.leastExponent + k)) := by
  have hpos := Nat.two_pow_pos f.fractionBits
  have hmod : bits % f.signBit = bits := Nat.mod_eq_of_lt (hfinite.trans f.infinity_lt)
  have hsign : decide (f.signBit ≤ bits) = false :=
    decide_eq_false (Nat.not_le.mpr (hfinite.trans f.infinity_lt))
  rw [pow_succ] at hwidth
  unfold decode
  simp only [hmod, hsign, Nat.pow_eq, if_neg hfinite.not_gt, if_neg hfinite.ne]
  rcases Nat.lt_or_ge s (2 ^ f.fractionBits) with hsmall | hlarge
  · obtain rfl : k = 0 := hnormal.resolve_right (Nat.not_le.mpr hsmall)
    obtain rfl : bits = s := by omega
    rw [if_pos (Nat.div_eq_of_lt hsmall), Nat.mod_eq_of_lt hsmall]
    simp [Numeral.value?]
  rcases Nat.lt_or_ge s (2 * 2 ^ f.fractionBits) with hfull | hcarry
  · obtain ⟨t, rfl⟩ := Nat.exists_eq_add_of_le hlarge
    have ht : t < 2 ^ f.fractionBits := by omega
    have hsum : bits = t + (k + 1) * 2 ^ f.fractionBits := by
      rw [Nat.succ_mul]
      omega
    rw [hsum, Nat.add_mul_div_right _ _ hpos, Nat.add_mul_mod_self_right, Nat.div_eq_of_lt ht,
      Nat.mod_eq_of_lt ht, if_neg (by omega)]
    simp [Numeral.value?]
  · obtain rfl : s = 2 * 2 ^ f.fractionBits := by omega
    have hsum : bits = (k + 2) * 2 ^ f.fractionBits := by
      rw [Nat.add_mul]
      exact hbits
    rw [hsum, Nat.mul_div_cancel _ hpos, Nat.mul_mod_left, if_neg (by omega)]
    simp only [Numeral.value?, Bool.false_eq_true, if_false]
    congr 1
    push_cast
    rw [show f.leastExponent + ((k : Int) + 2 - 1) = f.leastExponent + k + 1 by ring,
      zpow_add_one₀ (by norm_num)]
    ring

/-- What a finite number of the format is: an integer with not too many digits, counted in a unit
that is not too small. -/
lemma exists_of_value?_decode {w : ℚ} (h : (f.decode bits).value? = some w) :
    ∃ (m : Int) (e : Int), w = m * 2 ^ e ∧ |(m : ℚ)| < 2 ^ (f.fractionBits + 1) ∧
      f.leastExponent ≤ e := by
  cases hdecode : f.decode bits with
  | nan => simp [hdecode, Numeral.value?] at h
  | infinite negative => simp [hdecode, Numeral.value?] at h
  | finite negative m e =>
    obtain ⟨hm, hleast, -⟩ := range_of_decode hdecode
    have hm' : (m : ℚ) < 2 ^ (f.fractionBits + 1) := by exact_mod_cast hm
    rw [hdecode, Numeral.value?, Option.some.injEq] at h
    cases negative with
    | false => exact ⟨m, e, by simp [← h], by simpa using hm', hleast⟩
    | true => exact ⟨-m, e, by simp [← h], by simpa using hm', hleast⟩

lemma abs_mul_sub_mul {a x unit : ℚ} (hunit : 0 < unit) :
    |a * unit - x * unit| = |a - x| * unit := by
  rw [← sub_mul, abs_mul, abs_of_pos hunit]

/-- Where the numbers are the multiples of a unit, the nearest one is found by dividing.  Numbers
that are counted in a smaller unit are all on one side. -/
lemma isNearest_of_units {n d : Nat} {unit : Int} (hfraction : 0 < f.fractionBits) (hd : 0 < d)
    (hbits : bits = k * 2 ^ f.fractionBits + divNearestEven n d)
    (hunit : f.leastExponent + k = unit) (hwidth : n ≤ 2 ^ (f.fractionBits + 1) * d)
    (hnormal : k = 0 ∨ 2 ^ f.fractionBits * d ≤ n) (hfinite : bits < f.infinity) :
    f.IsNearest bits (n / d * 2 ^ unit) := by
  have hpos : (0 : ℚ) < 2 ^ unit := by positivity
  have hvalue := value?_decode hbits (divNearestEven_le hd hwidth)
    (hnormal.imp_right (le_divNearestEven hd)) hfinite
  rw [hunit] at hvalue
  refine ⟨_, hvalue, fun other w hw => ?_⟩
  obtain ⟨m, e, rfl, hm, hleast⟩ := exists_of_value?_decode hw
  rw [abs_mul_sub_mul hpos]
  rcases le_or_gt unit e with hcoarse | hfine
  · -- the other number is a multiple of the unit
    obtain ⟨j, rfl⟩ := Int.le.dest hcoarse
    have hmultiple : (m : ℚ) * 2 ^ (unit + j) = ((m * 2 ^ j : Int) : ℚ) * 2 ^ unit := by
      rw [zpow_add₀ (by norm_num), zpow_natCast]
      push_cast
      ring
    rw [hmultiple, abs_mul_sub_mul hpos]
    rcases divNearestEven_nearest n hd (m * 2 ^ j) with heq | hlt | ⟨heq, heven⟩
    · left
      rw [heq]
      norm_cast
    · exact .inr (.inl ((mul_lt_mul_iff_left₀ hpos).mpr hlt))
    · refine .inr (.inr ⟨by rw [heq], ?_⟩)
      obtain ⟨t, ht⟩ := Nat.exists_eq_succ_of_ne_zero hfraction.ne'
      rw [hbits, ht, Nat.pow_succ, ← Nat.mul_assoc]
      omega
  · -- it is counted in a smaller unit, and lies below the first number with as many digits
    obtain ⟨j, rfl⟩ := Nat.exists_eq_succ_of_ne_zero (show k ≠ 0 by omega)
    have hfirst : (2 : ℚ) ^ f.fractionBits ≤ n / d := by
      rw [le_div_iff₀ (by exact_mod_cast hd)]
      exact_mod_cast hnormal.resolve_left j.succ_ne_zero
    have hsmall : |(m : ℚ) * 2 ^ e| < 2 ^ f.fractionBits * 2 ^ unit := by
      rw [abs_mul, abs_of_pos (by positivity : (0 : ℚ) < 2 ^ e)]
      calc |(m : ℚ)| * 2 ^ e < 2 ^ (f.fractionBits + 1) * 2 ^ e :=
            mul_lt_mul_of_pos_right hm (by positivity)
        _ = 2 ^ f.fractionBits * 2 ^ (e + 1) := by
            rw [zpow_add_one₀ (by norm_num)]
            ring
        _ ≤ 2 ^ f.fractionBits * 2 ^ unit :=
            mul_le_mul_of_nonneg_left (zpow_le_zpow_right₀ (by norm_num) hfine) (by positivity)
    have hnearest : |(divNearestEven n d : ℚ) - n / d| ≤ n / d - 2 ^ f.fractionBits := by
      have habs : |(2 : ℚ) ^ f.fractionBits - n / d| = n / d - 2 ^ f.fractionBits := by
        rw [abs_sub_comm, abs_of_nonneg (sub_nonneg.mpr hfirst)]
      rw [← habs]
      exact_mod_cast abs_divNearestEven_sub_le n hd (2 ^ f.fractionBits)
    right
    left
    calc |(divNearestEven n d : ℚ) - n / d| * 2 ^ unit
        ≤ (n / d - 2 ^ f.fractionBits) * 2 ^ unit := mul_le_mul_of_nonneg_right hnearest hpos.le
      _ < n / d * 2 ^ unit - |(m : ℚ) * 2 ^ e| := by
          rw [sub_mul]
          exact sub_lt_sub_left hsmall _
      _ = |(n / d * 2 ^ unit : ℚ)| - |(m : ℚ) * 2 ^ e| := by
          rw [abs_of_nonneg (by positivity : (0 : ℚ) ≤ n / d * 2 ^ unit)]
      _ ≤ |(n / d * 2 ^ unit : ℚ) - m * 2 ^ e| := abs_sub_abs_le_abs_sub _ _
      _ = |(m : ℚ) * 2 ^ e - n / d * 2 ^ unit| := abs_sub_comm _ _

/-- How a quotient is rounded: it is counted in units that are not too small for it. -/
lemma exists_unit (f : BinaryFormat) {n d : Nat} (hn : 0 < n) :
    ∃ unit, unit = max f.leastExponent (floorLog2 n d - f.fractionBits) ∧
      f.ofRatio n d = min ((unit - f.leastExponent).toNat * 2 ^ f.fractionBits +
        divNearestEven (inUnits n d unit).1 (inUnits n d unit).2) f.infinity := by
  refine ⟨_, rfl, ?_⟩
  simp only [ofRatio, if_neg hn.ne', Nat.pow_eq]

/-- **Quotients are rounded to the nearest number**, if it is finite. -/
theorem isNearest_ofRatio {num den : Nat} (hfraction : 0 < f.fractionBits) (hden : 0 < den)
    (hfinite : f.ofRatio num den < f.infinity) :
    f.IsNearest (f.ofRatio num den) (num / den) := by
  rcases Nat.eq_zero_or_pos num with rfl | hnum
  · have hzero : f.ofRatio 0 den = 0 := if_pos rfl
    rw [hzero] at hfinite ⊢
    have hunits := isNearest_of_units (n := 0) (k := 0) hfraction hden
      (by simp [divNearestEven]) rfl (Nat.zero_le _) (.inl rfl) hfinite
    simpa using hunits
  have hq : (0 : ℚ) < num / den := by positivity
  have hlow : (2 : ℚ) ^ floorLog2 num den ≤ num / den := by
    rw [floorLog2_eq hnum hden]
    exact_mod_cast Int.zpow_log_le_self (by decide) hq
  obtain ⟨unit, hunit, hbits⟩ := f.exists_unit (d := den) hnum
  obtain ⟨hd, hvalue⟩ := inUnits_spec num hden unit
  have hwidth := inUnits_le (p := f.fractionBits) (e := unit) hnum hden (by omega)
  generalize hunits : inUnits num den unit = units at hd hvalue hwidth hbits
  obtain ⟨n, d⟩ := units
  rw [hbits] at hfinite ⊢
  rw [min_eq_left (by omega)] at hfinite ⊢
  have hpos : (0 : ℚ) < 2 ^ unit := by positivity
  have hd' : (0 : ℚ) < d := by exact_mod_cast hd
  have hquotient : (num : ℚ) / den = n / d * 2 ^ unit := by
    rw [hvalue, div_mul_cancel₀ _ hpos.ne']
  rw [hquotient] at hlow ⊢
  refine isNearest_of_units hfraction hd rfl (by omega) hwidth ?_ hfinite
  rcases le_total (floorLog2 num den - f.fractionBits) f.leastExponent with hleast | hnormal
  · left
    omega
  · right
    have hle : (2 : ℚ) ^ f.fractionBits * 2 ^ unit ≤ n / d * 2 ^ unit := by
      refine le_trans (le_of_eq ?_) hlow
      rw [← zpow_natCast, ← zpow_add₀ (by norm_num)]
      congr 1
      omega
    have hle' := (le_div_iff₀ hd').mp (le_of_mul_le_mul_right hle hpos)
    exact_mod_cast hle'

/-! ## Signs -/

lemma signBit_even (hfraction : 0 < f.fractionBits) : f.signBit % 2 = 0 := by
  obtain ⟨t, ht⟩ := Nat.exists_eq_succ_of_ne_zero hfraction.ne'
  rw [signBit_eq, ht, Nat.pow_succ, ← Nat.mul_assoc]
  omega

/-- Bits that differ in the sign bit only stand for a number and its negative. -/
lemma value?_decode_neg {bits bits' : Nat} (hmod : bits' % f.signBit = bits % f.signBit)
    (hsign : decide (f.signBit ≤ bits') = !decide (f.signBit ≤ bits)) :
    (f.decode bits').value? = (f.decode bits).value?.map fun v => -v := by
  unfold decode
  simp only [hmod, hsign]
  generalize decide (f.signBit ≤ bits) = negative
  split
  · rfl
  split
  · rfl
  split
  · cases negative <;> simp [Numeral.value?]
  · cases negative <;> simp [Numeral.value?] <;> ring

lemma exists_value?_neg (f : BinaryFormat) (bits : Nat) :
    ∃ bits', (f.decode bits').value? = (f.decode bits).value?.map fun v => -v := by
  by_cases hnegative : f.signBit ≤ bits
  · have hlt : bits % f.signBit < f.signBit := Nat.mod_lt bits (Nat.two_pow_pos _)
    exact ⟨bits % f.signBit, value?_decode_neg (Nat.mod_mod _ _)
      (by simp [hnegative, Nat.not_le.mpr hlt])⟩
  · exact ⟨bits + f.signBit, value?_decode_neg (Nat.add_mod_right _ _) (by simp [hnegative])⟩

/-- The negative of a number is rounded to the negative of what the number is rounded to. -/
lemma IsNearest.neg (h : f.IsNearest bits q) (hfraction : 0 < f.fractionBits)
    (hbits : bits < f.signBit) : f.IsNearest (f.signBit + bits) (-q) := by
  obtain ⟨v, hv, hnearest⟩ := h
  have hnegative : (f.decode (f.signBit + bits)).value? = some (-v) := by
    rw [value?_decode_neg (Nat.add_mod_left _ _) (by simp [Nat.not_le.mpr hbits]), hv]
    rfl
  have habs (w : ℚ) : |-v - -q| = |v - q| ∧ |w - -q| = |-w - q| := by
    constructor
    · rw [← abs_neg]
      congr 1
      ring
    · rw [← abs_neg]
      congr 1
      ring
  have heven := signBit_even hfraction
  refine ⟨-v, hnegative, fun other w hw => ?_⟩
  obtain ⟨other', hother⟩ := f.exists_value?_neg other
  rw [hw] at hother
  rw [(habs w).1, (habs w).2]
  rcases hnearest other' (-w) hother with heq | hlt | ⟨heq, hparity⟩
  · exact .inl (neg_eq_iff_eq_neg.mp heq)
  · exact .inr (.inl hlt)
  · exact .inr (.inr ⟨heq, by omega⟩)

end BinaryFormat

/-! ## Integers -/

/-- Words are far from too large for the 64-bit format. -/
lemma ofRatio_lt {n : Nat} (h : n < 2 ^ 64) : binary64.ofRatio n 1 < binary64.infinity := by
  rcases Nat.eq_zero_or_pos n with rfl | hn
  · decide
  have hfloor : floorLog2 n 1 ≤ 63 := by
    rw [floorLog2_eq hn Nat.one_pos]
    have hlog : Int.log 2 ((n : ℚ) / (1 : Nat)) = (Nat.log 2 n : Int) := by
      rw [Nat.cast_one, div_one, Int.log_natCast]
    rw [hlog]
    have := Nat.log_lt_of_lt_pow hn.ne' h
    omega
  have hleast : binary64.leastExponent = -1074 := rfl
  have hfraction : binary64.fractionBits = 52 := rfl
  have hinfinity : binary64.infinity = 2047 * 2 ^ 52 := rfl
  obtain ⟨unit, hunit, hbits⟩ := binary64.exists_unit (d := 1) hn
  obtain ⟨hd, -⟩ := inUnits_spec n Nat.one_pos unit
  have hwidth := inUnits_le (p := 52) (e := unit) hn Nat.one_pos (by omega)
  have hsignificand := divNearestEven_le hd hwidth
  have hexponent : (unit - binary64.leastExponent).toNat ≤ 1085 := by omega
  rw [hbits, hfraction]
  refine (min_le_left _ _).trans_lt ?_
  rw [hinfinity]
  calc (unit - binary64.leastExponent).toNat * 2 ^ 52 + _
      ≤ 1085 * 2 ^ 52 + 2 ^ 53 := Nat.add_le_add (Nat.mul_le_mul_right _ hexponent) hsignificand
    _ < 2047 * 2 ^ 52 := by decide

/-- **Integers become the nearest numbers of the 64-bit format**, if they are no larger than a
word. -/
theorem isNearest_ofInt {v : Int} (h : v.natAbs < 2 ^ 64) :
    binary64.IsNearest (ofInt v).toNat v := by
  have hfinite := ofRatio_lt h
  have hsize : UInt64.size = 2 ^ 64 := rfl
  have hlt := hfinite.trans binary64.infinity_lt
  have hbound : binary64.signBit = 2 ^ 63 := rfl
  have hnearest := BinaryFormat.isNearest_ofRatio (f := binary64) (by decide) Nat.one_pos hfinite
  rw [Nat.cast_one, div_one] at hnearest
  unfold ofInt BinaryFormat.withSign
  by_cases hnegative : v < 0
  · simp only [hnegative, decide_true, if_true]
    rw [UInt64.toNat_ofNat_of_lt' (by omega)]
    have hvalue : (v : ℚ) = -(v.natAbs : ℚ) := by
      rw [Nat.cast_natAbs, abs_of_neg hnegative]
      push_cast
      rw [neg_neg]
    rw [hvalue]
    exact hnearest.neg (by decide) hlt
  · simp only [hnegative, decide_false, Bool.false_eq_true, if_false]
    rw [UInt64.toNat_ofNat_of_lt' (by omega)]
    have hvalue : (v : ℚ) = (v.natAbs : ℚ) := by
      rw [Nat.cast_natAbs, abs_of_nonneg (Int.not_lt.mp hnegative)]
    rw [hvalue]
    exact hnearest

end TreeCode.Number
