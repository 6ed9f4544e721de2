import TreeCode.Number.Shortest
import TreeCode.Proofs.Rounding

/-!
# Decimals that read back

What a decimal is rounded to depends only on its value (`Decimal.round_congr`), and the digits that
a finite number is written with are rounded to the number again (`round_shortest`).  Both layouts
of a text keep the value, so a finite number is read back from its text.
-/

namespace TreeCode.Number

/-! ## Values of decimals -/

namespace Decimal

variable {f : BinaryFormat} {d d' : Decimal} {num den : Nat}

/-- The rational number that a decimal stands for. -/
def value (d : Decimal) : ℚ := d.digits * 10 ^ d.exponent

lemma value_eq_zero_iff : d.value = 0 ↔ d.digits = 0 := by
  rw [value, mul_eq_zero, Nat.cast_eq_zero, or_iff_left (zpow_ne_zero _ (by norm_num))]

/-- The place of the first digit of a decimal is the logarithm of its value. -/
lemma order_eq (hd : d.digits ≠ 0) :
    d.exponent + (Nat.toDigits 10 d.digits).length = Int.log 10 d.value + 1 := by
  obtain ⟨k, hk⟩ := Nat.exists_eq_succ_of_ne_zero
    (Nat.length_toDigits_pos (b := 10) (n := d.digits)).ne'
  have hhigh : d.digits < 10 ^ (k + 1) :=
    (Nat.length_toDigits_le_iff (by decide) (Nat.succ_pos k)).mp hk.le
  have hlow : 10 ^ k ≤ d.digits := by
    rcases Nat.eq_zero_or_pos k with rfl | hpos
    · exact Nat.pos_of_ne_zero hd
    · refine not_lt.mp fun hlt => ?_
      have hle := (Nat.length_toDigits_le_iff (b := 10) (by decide) hpos).mpr hlt
      omega
  have hten : (0 : ℚ) < 10 ^ d.exponent := zpow_pos (by norm_num) _
  have hlog : Int.log 10 d.value = k + d.exponent := by
    refine log_eq_of_zpow_le (by decide) ?_ ?_
    · rw [Nat.cast_ofNat, zpow_add₀ (by norm_num : (10 : ℚ) ≠ 0), zpow_natCast]
      exact mul_le_mul_of_nonneg_right (by exact_mod_cast hlow) hten.le
    · rw [Nat.cast_ofNat, add_right_comm, zpow_add₀ (by norm_num : (10 : ℚ) ≠ 0),
        ← Nat.cast_succ, zpow_natCast]
      exact mul_lt_mul_of_pos_right (by exact_mod_cast hhigh) hten
  rw [hlog, hk]
  push_cast
  ring

/-- What a decimal is rounded to, by its value. -/
lemma round_eq (hd : d.digits ≠ 0) (hden : 0 < den) (h : (num : ℚ) / den = d.value) :
    d.round f =
      if 400 < Int.log 10 d.value + 1 then f.infinity
      else if Int.log 10 d.value + 1 < -400 then 0
      else f.ofRatio num den := by
  simp only [round, if_neg hd, order_eq hd]
  refine if_congr Iff.rfl rfl (if_congr Iff.rfl rfl ?_)
  cases hexp : d.exponent with
  | ofNat k =>
    refine BinaryFormat.ofRatio_congr (by decide) hden ?_
    rw [h, value, hexp]
    simp
  | negSucc k =>
    refine BinaryFormat.ofRatio_congr (Nat.pow_pos (by decide)) hden ?_
    rw [h, value, hexp, zpow_negSucc]
    simp [div_eq_mul_inv]

/-- The value of a decimal is a quotient. -/
lemma exists_quotient (d : Decimal) : ∃ num den : Nat, 0 < den ∧ (num : ℚ) / den = d.value := by
  cases hexp : d.exponent with
  | ofNat k =>
    refine ⟨d.digits * 10 ^ k, 1, by decide, ?_⟩
    rw [value, hexp]
    simp
  | negSucc k =>
    refine ⟨d.digits, 10 ^ (k + 1), Nat.pow_pos (by decide), ?_⟩
    rw [value, hexp, zpow_negSucc]
    simp [div_eq_mul_inv]

/-- What a decimal is rounded to depends only on its value. -/
lemma round_congr (h : d.value = d'.value) : d.round f = d'.round f := by
  by_cases hd : d.digits = 0
  · have hd' : d'.digits = 0 := by rwa [← value_eq_zero_iff, ← h, value_eq_zero_iff]
    simp only [round, if_pos hd, if_pos hd']
  · have hd' : d'.digits ≠ 0 := by rwa [ne_eq, ← value_eq_zero_iff, ← h, value_eq_zero_iff]
    obtain ⟨num, den, hden, hquotient⟩ := d.exists_quotient
    rw [round_eq hd hden hquotient, round_eq hd' hden (hquotient.trans h), h]

end Decimal

/-! ## The shortest digits -/

/-- The search for digits gives only decimals that read back. -/
lemma round_of_firstReadingBack {f : BinaryFormat} {bits num den : Nat} {order : Int}
    {digits count : Nat} {d : Decimal}
    (h : firstReadingBack f bits num den order digits count = some d) : d.round f = bits := by
  induction count generalizing digits with
  | zero => simp [firstReadingBack] at h
  | succ count ih =>
    rw [firstReadingBack] at h
    split at h
    · rename_i found hfound
      obtain rfl := Option.some.inj h
      simpa using List.find?_some hfound
    · exact ih h

lemma value_exactDecimal (m : Nat) (e : Int) : (exactDecimal m e).value = m * 2 ^ e := by
  cases e with
  | ofNat k => simp [exactDecimal, Decimal.value]
  | negSucc k =>
    have hten : (10 : ℚ) ^ (k + 1) = 5 ^ (k + 1) * 2 ^ (k + 1) := by
      rw [← mul_pow]
      norm_num
    have hneg : -((k : Int) + 1) = Int.negSucc k := by omega
    simp only [exactDecimal, Decimal.value, Nat.pow_eq, hneg, zpow_negSucc, hten]
    push_cast
    field_simp

/-- No finite number is out of the range of decimals. -/
lemma log_of_decode {bits m : Nat} {negative : Bool} {e : Int}
    (h : binary64.decode bits = .finite negative m e) (hm : m ≠ 0) :
    -401 ≤ Int.log 10 ((m : ℚ) * 2 ^ e) ∧ Int.log 10 ((m : ℚ) * 2 ^ e) < 400 := by
  obtain ⟨hwidth, hleast, hmost⟩ := BinaryFormat.range_of_decode h
  have hone : (1 : ℚ) ≤ m := by exact_mod_cast Nat.pos_of_ne_zero hm
  have hwidth' : (m : ℚ) < 2 ^ 53 := by exact_mod_cast hwidth
  have hmost' : e ≤ 974 := hmost
  have hleast' : -1074 ≤ e := hleast
  have hpos : (0 : ℚ) < m * 2 ^ e := by positivity
  constructor
  · refine (Int.zpow_le_iff_le_log (by decide) hpos).mp ?_
    have hsmall : 2 ^ 1074 ≤ 10 ^ 401 := by decide +kernel
    have hsmall' : ((10 : Nat) : ℚ) ^ (-401 : Int) ≤ 2 ^ (-1074 : Int) := by
      rw [zpow_neg, zpow_neg]
      exact inv_anti₀ (by positivity) (by exact_mod_cast hsmall)
    calc ((10 : Nat) : ℚ) ^ (-401 : Int) ≤ 1 * 2 ^ (-1074 : Int) := by rwa [one_mul]
      _ ≤ m * 2 ^ e :=
        mul_le_mul hone (zpow_le_zpow_right₀ (by norm_num) hleast') (by positivity)
          (by positivity)
  · refine (Int.lt_zpow_iff_log_lt (by decide) hpos).mp ?_
    have hlarge : 2 ^ 53 * 2 ^ 974 ≤ 10 ^ 400 := by decide +kernel
    calc (m : ℚ) * 2 ^ e < 2 ^ 53 * 2 ^ (974 : Int) :=
          mul_lt_mul hwidth' (zpow_le_zpow_right₀ (by norm_num) hmost') (by positivity)
            (by positivity)
      _ ≤ ((10 : Nat) : ℚ) ^ (400 : Int) := by exact_mod_cast hlarge

/-- **The digits of a finite number read back as its bits.** -/
theorem round_shortest {bits m : Nat} {negative : Bool} {e : Int}
    (h : binary64.decode bits = .finite negative m e) :
    (shortest binary64 m e).round binary64 = bits % binary64.signBit := by
  rw [← BinaryFormat.ofScaled_of_decode h]
  by_cases hm : m = 0
  · rw [hm, shortest, if_pos rfl, BinaryFormat.ofScaled_zero]
    rfl
  simp only [shortest, if_neg hm]
  cases hfound : firstReadingBack binary64 (binary64.ofScaled m e) (inUnits m 1 (-e)).1
      (inUnits m 1 (-e)).2 (decimalOrder (inUnits m 1 (-e)).1 (inUnits m 1 (-e)).2) 1
      enoughDigits with
  | some d => exact round_of_firstReadingBack hfound
  | none =>
    -- The exact digits are always right.
    obtain ⟨num, den, hden, hvalue, hscaled⟩ := binary64.exists_ofScaled m e
    obtain ⟨hlow, hhigh⟩ := log_of_decode h hm
    have hdigits : (exactDecimal m e).digits ≠ 0 := by
      have hm' : (m : ℚ) ≠ 0 := by exact_mod_cast hm
      rw [ne_eq, ← Decimal.value_eq_zero_iff, value_exactDecimal]
      positivity
    have hquotient := hvalue.trans (value_exactDecimal m e).symm
    rw [Option.getD_none, Decimal.round_eq hdigits hden hquotient, value_exactDecimal,
      if_neg (by omega), if_neg (by omega), hscaled]

/-! ## Digits -/

lemma digitsValue_append (a b : List Char) :
    digitsValue (a ++ b) = digitsValue a * 10 ^ b.length + digitsValue b := by
  have hvalue (cs : List Char) : digitsValue cs = Nat.ofDigitChars 10 cs 0 :=
    Nat.ofDigitChars_eq_foldl.symm
  rw [hvalue, hvalue, hvalue, Nat.ofDigitChars_append, Nat.ofDigitChars_eq_ofDigitChars_zero,
    Nat.mul_comm]

@[simp] lemma digitsValue_toDigits (n : Nat) : digitsValue (Nat.toDigits 10 n) = n :=
  Nat.ofDigitChars_eq_foldl.symm.trans Nat.ofDigitChars_ten_toDigits

@[simp] lemma digitsValue_replicate_zero (n : Nat) : digitsValue (List.replicate n '0') = 0 := by
  rw [digitsValue, ← Nat.ofDigitChars_eq_foldl, Nat.ofDigitChars_replicate_zero, Nat.mul_zero]

lemma digitsValue_zero : digitsValue ['0'] = 0 := rfl

lemma isDigit_of_mem_toDigits {n : Nat} {c : Char} (h : c ∈ Nat.toDigits 10 n) : c.isDigit :=
  Nat.isDigit_of_mem_toDigits (by decide) (by decide) h

namespace Decimal

variable {d : Decimal}

/-- The digits of a decimal without the zeros at the end. -/
lemma toDigits_eq_places (hd : d.digits ≠ 0) :
    ∃ zeros, Nat.toDigits 10 d.digits = d.places.1 ++ List.replicate zeros '0' := by
  refine ⟨((Nat.toDigits 10 d.digits).reverse.takeWhile (· == '0')).length, ?_⟩
  have hzeros : (Nat.toDigits 10 d.digits).reverse.takeWhile (· == '0') =
      List.replicate ((Nat.toDigits 10 d.digits).reverse.takeWhile (· == '0')).length '0' :=
    List.eq_replicate_of_mem fun c hc => by
      simpa using List.all_eq_true.mp List.all_takeWhile c hc
  rw [places, if_neg hd, ← List.reverse_replicate, ← hzeros, ← List.reverse_append,
    List.takeWhile_append_dropWhile, List.reverse_reverse]

lemma places_eq_zero (hd : d.digits = 0) : d.places = (['0'], 1) := if_pos hd

lemma isDigit_of_mem_places {c : Char} (h : c ∈ d.places.1) : c.isDigit := by
  by_cases hd : d.digits = 0
  · rw [places_eq_zero hd, List.mem_singleton] at h
    rw [h]
    rfl
  · obtain ⟨zeros, hdigits⟩ := toDigits_eq_places hd
    refine isDigit_of_mem_toDigits (n := d.digits) ?_
    rw [hdigits]
    exact List.mem_append_left _ h

lemma places_ne_nil : d.places.1 ≠ [] := by
  by_cases hd : d.digits = 0
  · simp [places_eq_zero hd]
  · intro hnil
    obtain ⟨zeros, hdigits⟩ := toDigits_eq_places hd
    have hvalue := digitsValue_toDigits d.digits
    rw [hdigits, hnil, List.nil_append, digitsValue_replicate_zero] at hvalue
    exact hd hvalue.symm

/-- The digits and the place of the point have the value of the decimal. -/
lemma value_places :
    (digitsValue d.places.1 : ℚ) * 10 ^ (d.places.2 - d.places.1.length) = d.value := by
  by_cases hd : d.digits = 0
  · rw [places_eq_zero hd, value, hd]
    simp [digitsValue]
  · obtain ⟨zeros, hdigits⟩ := toDigits_eq_places hd
    have hpoint : d.places.2 = d.exponent + (Nat.toDigits 10 d.digits).length := by
      rw [places, if_neg hd]
    have hvalue := digitsValue_toDigits d.digits
    rw [hdigits, digitsValue_append, List.length_replicate, digitsValue_replicate_zero,
      Nat.add_zero] at hvalue
    have hshift : d.places.2 - d.places.1.length = zeros + d.exponent := by
      rw [hpoint, hdigits, List.length_append, List.length_replicate]
      push_cast
      ring
    rw [hshift, value, ← hvalue, zpow_add₀ (by norm_num : (10 : ℚ) ≠ 0), zpow_natCast]
    push_cast
    ring

end Decimal

/-! ## Layout -/

/-- A text with digits in front of a point or an exponent, and its value. -/
inductive DecimalText : List Char → ℚ → Prop
  | positional (whole fraction : List Char) (whole_ne_nil : whole ≠ [])
      (digits : ∀ c ∈ whole ++ fraction, c.isDigit) :
      DecimalText (whole ++ '.' :: fraction)
        (digitsValue (whole ++ fraction) * 10 ^ (-(fraction.length : Int)))
  | scientific (lead : Char) (fraction : List Char) (exponent : Int)
      (digits : ∀ c ∈ lead :: fraction, c.isDigit) :
      DecimalText
        (lead :: ((if fraction = [] then [] else '.' :: fraction) ++
          'e' :: (toString exponent).toList))
        (digitsValue (lead :: fraction) * 10 ^ (exponent - fraction.length))

namespace DecimalText

variable {cs : List Char}

lemma of_eq {cs' : List Char} {v v' : ℚ} (h : DecimalText cs v) (hcs : cs' = cs)
    (hv : v' = v) : DecimalText cs' v' := by
  rwa [hcs, hv]

/-- Zeros stand between the point and the digits. -/
lemma of_small (hdigits : ∀ c ∈ cs, c.isDigit) (zeros : Nat) :
    DecimalText ('0' :: '.' :: (List.replicate zeros '0' ++ cs))
      (digitsValue cs * 10 ^ (-(zeros : Int) - cs.length)) := by
  refine (positional ['0'] (List.replicate zeros '0' ++ cs) (by simp) ?_).of_eq rfl ?_
  · simp only [List.mem_append, List.mem_singleton, List.mem_replicate]
    rintro c (rfl | ⟨-, rfl⟩ | hc)
    · rfl
    · rfl
    · exact hdigits c hc
  · have hvalue : digitsValue (['0'] ++ (List.replicate zeros '0' ++ cs)) = digitsValue cs := by
      simp only [digitsValue_append, digitsValue_zero, digitsValue_replicate_zero, Nat.zero_mul,
        Nat.zero_add]
    rw [hvalue, List.length_append, List.length_replicate]
    congr 2
    push_cast
    ring

/-- Zeros stand between the digits and the point. -/
lemma of_large (hdigits : ∀ c ∈ cs, c.isDigit) (hne : cs ≠ []) (zeros : Nat) :
    DecimalText (cs ++ List.replicate zeros '0' ++ ['.', '0']) (digitsValue cs * 10 ^ zeros) := by
  refine (positional (cs ++ List.replicate zeros '0') ['0'] (by simp [hne]) ?_).of_eq rfl ?_
  · simp only [List.mem_append, List.mem_singleton, List.mem_replicate]
    rintro c ((hc | ⟨-, rfl⟩) | rfl)
    · exact hdigits c hc
    · rfl
    · rfl
  · have hvalue : digitsValue (cs ++ List.replicate zeros '0' ++ ['0']) =
        digitsValue cs * 10 ^ zeros * 10 := by
      simp only [digitsValue_append, digitsValue_zero, digitsValue_replicate_zero,
        List.length_replicate, List.length_singleton, Nat.add_zero, pow_one]
    rw [hvalue, List.length_singleton, zpow_neg]
    push_cast
    field_simp

/-- The point stands between two digits. -/
lemma of_between (hdigits : ∀ c ∈ cs, c.isDigit) (hne : cs ≠ []) {k : Nat} (hpos : 0 < k)
    (hle : k ≤ cs.length) :
    DecimalText (cs.take k ++ '.' :: cs.drop k)
      (digitsValue cs * 10 ^ ((k : Int) - cs.length)) := by
  refine (positional (cs.take k) (cs.drop k) ?_ ?_).of_eq rfl ?_
  · simp [hne, hpos.ne']
  · rwa [List.take_append_drop]
  · rw [List.take_append_drop, List.length_drop]
    congr 2
    omega

end DecimalText

namespace Decimal

/-- Positional notation writes the value of a decimal. -/
lemma positional_spec (d : Decimal) : DecimalText (d.positional ".0").toList d.value := by
  have hdigits (c : Char) (h : c ∈ d.places.1) : c.isDigit := isDigit_of_mem_places h
  rw [← value_places]
  simp only [positional]
  generalize d.places.2 = point
  split
  case isTrue hsmall =>
    obtain ⟨zeros, rfl⟩ := Int.exists_eq_neg_ofNat hsmall
    exact (DecimalText.of_small hdigits zeros).of_eq (by simp) rfl
  case isFalse hlarge =>
    split
    case isTrue hintegral =>
      obtain ⟨zeros, hzeros⟩ := Int.eq_ofNat_of_zero_le (sub_nonneg.mpr hintegral)
      refine (DecimalText.of_large hdigits places_ne_nil zeros).of_eq (by simp [hzeros]) ?_
      rw [hzeros, zpow_natCast]
    case isFalse hbetween =>
      obtain ⟨k, rfl⟩ := Int.eq_ofNat_of_zero_le (not_le.mp hlarge).le
      exact (DecimalText.of_between hdigits places_ne_nil (k := k) (by omega) (by omega)).of_eq
        (by simp) rfl

/-- Exponent notation writes the value of a decimal. -/
lemma scientific_spec (d : Decimal) : DecimalText d.scientific.toList d.value := by
  rw [← value_places]
  obtain ⟨lead, fraction, hplaces⟩ := List.exists_cons_of_ne_nil (places_ne_nil (d := d))
  refine (DecimalText.scientific lead fraction (d.places.2 - 1) ?_).of_eq ?_ ?_
  · intro c hc
    exact isDigit_of_mem_places (hplaces ▸ hc)
  · cases fraction <;> simp [scientific, hplaces]
  · rw [hplaces, List.length_cons]
    congr 2
    push_cast
    ring

end Decimal

/-! ## Reading -/

/-- The digits in front of a character that is none. -/
lemma takeWhile_dropWhile_digits {digits rest : List Char} (hdigits : ∀ c ∈ digits, c.isDigit)
    (hrest : ∀ c ∈ rest.head?, c.isDigit = false) :
    (digits ++ rest).takeWhile Char.isDigit = digits ∧
      (digits ++ rest).dropWhile Char.isDigit = rest := by
  rw [List.takeWhile_append_of_pos hdigits, List.dropWhile_append_of_pos hdigits]
  cases rest with
  | nil => simp
  | cons c rest => simp [hrest c rfl]

/-- An integer as text: a sign and digits. -/
lemma toList_toString (v : Int) :
    (toString v).toList = (if v < 0 then ['-'] else []) ++ Nat.toDigits 10 v.natAbs := by
  rw [Int.toString_eq_repr]
  cases v with
  | ofNat n => simp [Int.repr, Nat.repr_eq_ofList_toDigits]
  | negSucc n => simp [Int.repr, Nat.repr_eq_ofList_toDigits, Int.negSucc_lt_zero]

/-- The digits of a number do not begin with a sign. -/
lemma exists_toDigits_eq_cons (n : Nat) :
    ∃ c cs, Nat.toDigits 10 n = c :: cs ∧ c.isDigit ∧ c ≠ '-' ∧ c ≠ '+' := by
  obtain ⟨c, cs, hcs⟩ := List.exists_cons_of_ne_nil (Nat.toDigits_ne_nil (n := n) (b := 10))
  have hc : c.isDigit := isDigit_of_mem_toDigits (hcs ▸ List.mem_cons_self)
  refine ⟨c, cs, hcs, hc, ?_, ?_⟩
  · rintro rfl
    cases hc
  · rintro rfl
    cases hc

/-- A written exponent is read back. -/
lemma exponent?_toString (e : Int) : exponent? ('e' :: (toString e).toList) = some e := by
  have hdigits : (Nat.toDigits 10 e.natAbs).all Char.isDigit :=
    List.all_eq_true.mpr fun _ => isDigit_of_mem_toDigits
  have hne : (Nat.toDigits 10 e.natAbs).isEmpty = false := by simp
  have hvalue := digitsValue_toDigits e.natAbs
  have habs : ((e.natAbs : Nat) : Int) = if e < 0 then -e else e := by omega
  rw [toList_toString]
  by_cases hneg : e < 0
  · simp only [exponent?, if_pos hneg, List.singleton_append, hdigits, hne, hvalue, habs, neg_neg]
    rfl
  · obtain ⟨c, cs, hcs, -, hminus, hplus⟩ := exists_toDigits_eq_cons e.natAbs
    rw [hcs] at hdigits hne hvalue ⊢
    rw [if_neg hneg, List.nil_append]
    have hdigits' := List.all_eq_true.mp hdigits
    simp_all [exponent?]

/-- A text with a point or an exponent is read with its value. -/
lemma DecimalText.decimal? {cs : List Char} {v : ℚ} (h : DecimalText cs v) :
    ∃ d, decimal? cs = some d ∧ d.value = v := by
  cases h with
  | positional whole fraction hwhole hdigits =>
    obtain ⟨hfront, hback⟩ := List.forall_mem_append.mp hdigits
    have hpoint : ∀ c ∈ ('.' :: fraction).head?, c.isDigit = false := by simp
    have hend : ∀ c ∈ ([] : List Char).head?, c.isDigit = false := by simp
    obtain ⟨htake, hdrop⟩ := takeWhile_dropWhile_digits hfront hpoint
    obtain ⟨htake', hdrop'⟩ := takeWhile_dropWhile_digits hback hend
    rw [List.append_nil] at htake' hdrop'
    refine ⟨⟨digitsValue (whole ++ fraction), 0 - fraction.length⟩, ?_, ?_⟩
    · simp [Number.decimal?, htake, hdrop, htake', hdrop', hwhole, exponent?]
    · rw [Decimal.value, zero_sub]
  | scientific lead fraction e hdigits =>
    refine ⟨⟨digitsValue (lead :: fraction), e - fraction.length⟩, ?_, rfl⟩
    have hlead : ∀ c ∈ [lead], c.isDigit := by simpa using hdigits lead List.mem_cons_self
    have hfraction : ∀ c ∈ fraction, c.isDigit := fun c hc => hdigits c (List.mem_cons_of_mem _ hc)
    have hexponent := exponent?_toString e
    generalize (toString e).toList = digits at hexponent ⊢
    have hletter : ∀ c ∈ ('e' :: digits).head?, c.isDigit = false := by simp
    by_cases hnil : fraction = []
    · obtain ⟨htake, hdrop⟩ := takeWhile_dropWhile_digits hlead hletter
      rw [List.singleton_append] at htake hdrop
      rw [hnil, if_pos rfl, List.nil_append]
      simp [Number.decimal?, htake, hdrop, hexponent]
    · have hpoint : ∀ c ∈ ('.' :: (fraction ++ 'e' :: digits)).head?, c.isDigit = false := by simp
      obtain ⟨htake, hdrop⟩ := takeWhile_dropWhile_digits hlead hpoint
      obtain ⟨htake', hdrop'⟩ := takeWhile_dropWhile_digits hfraction hletter
      rw [List.singleton_append] at htake hdrop
      rw [if_neg hnil, List.cons_append]
      simp [Number.decimal?, htake, hdrop, htake', hdrop', hexponent]

/-- A text with a point or an exponent begins with a digit. -/
lemma DecimalText.exists_eq_cons {cs : List Char} {v : ℚ} (h : DecimalText cs v) :
    ∃ c rest, cs = c :: rest ∧ c.isDigit := by
  cases h with
  | positional whole fraction hwhole hdigits =>
    obtain ⟨c, rest, rfl⟩ := List.exists_cons_of_ne_nil hwhole
    exact ⟨c, _, rfl, hdigits c List.mem_cons_self⟩
  | scientific lead fraction e hdigits => exact ⟨lead, _, rfl, hdigits _ List.mem_cons_self⟩

lemma toLower_of_isDigit {c : Char} (h : c.isDigit) : c.toLower = c := by
  unfold Char.toLower
  simp only [Char.isDigit, Bool.and_eq_true, decide_eq_true_eq] at h
  grind

/-- A text with a point or an exponent is read as the number nearest to its value. -/
lemma DecimalText.magnitude? {cs : List Char} {v : ℚ} (h : DecimalText cs v) :
    ∃ d : Decimal, magnitude? cs = some (d.round binary64) ∧ d.value = v := by
  obtain ⟨d, hd, hvalue⟩ := h.decimal?
  obtain ⟨c, rest, rfl, hc⟩ := h.exists_eq_cons
  have hhead : (String.ofList ((c :: rest).map Char.toLower)).toList.head? = some c := by
    simp [toLower_of_isDigit hc]
  have hword (s : String) (hs : s.toList.head?.any Char.isDigit = false) :
      String.ofList ((c :: rest).map Char.toLower) ≠ s := by
    rintro rfl
    rw [hhead, Option.any_some, hc] at hs
    cases hs
  refine ⟨d, ?_, hvalue⟩
  unfold Number.magnitude?
  split
  · rename_i heq
    exact absurd heq (hword _ rfl)
  · rename_i heq
    exact absurd heq (hword _ rfl)
  · rename_i heq
    exact absurd heq (hword _ rfl)
  · rw [hd, Option.map_some]

/-! ## Numbers as text -/

/-- A finite number is written as a sign and a text with the value of its shortest digits. -/
lemma render_of_decode {bits m : Nat} {negative : Bool} {e : Int}
    (h : binary64.decode bits = .finite negative m e) :
    ∃ body, DecimalText body (shortest binary64 m e).value ∧
      (render constantStyle binary64 bits).toList = (if negative then ['-'] else []) ++ body := by
  have hlayout (positional : Bool) : DecimalText
      (if positional then (shortest binary64 m e).positional constantStyle.integralEnding
        else (shortest binary64 m e).scientific).toList (shortest binary64 m e).value := by
    cases positional with
    | true => exact Decimal.positional_spec _
    | false => exact Decimal.scientific_spec _
  simp only [render, h, String.toList_append]
  cases negative
  · exact ⟨_, hlayout _, rfl⟩
  · exact ⟨_, hlayout _, rfl⟩

/-- The bits of a number are its sign and its magnitude. -/
lemma withSign_mod {bits : Nat} (hbits : bits < 2 ^ 64) :
    binary64.withSign (decide (binary64.signBit ≤ bits)) (bits % binary64.signBit) = bits := by
  have hwidth : 2 ^ 64 = 2 * binary64.signBit := rfl
  rw [BinaryFormat.withSign]
  by_cases hle : binary64.signBit ≤ bits
  · rw [decide_eq_true hle, if_pos rfl, Nat.mod_eq_sub_mod hle, Nat.mod_eq_of_lt (by omega)]
    omega
  · rw [decide_eq_false hle, if_neg (by decide), Nat.mod_eq_of_lt (by omega)]

lemma withSign_of_decode {bits m : Nat} {negative : Bool} {e : Int} (hbits : bits < 2 ^ 64)
    (h : binary64.decode bits = .finite negative m e) :
    binary64.withSign negative (bits % binary64.signBit) = bits := by
  have hsign : decide (binary64.signBit ≤ bits) = negative := by
    simp only [BinaryFormat.decode] at h
    split at h
    · cases h
    split at h
    · cases h
    split at h <;> exact (Numeral.finite.inj h).1
  rw [← hsign, withSign_mod hbits]

lemma withSign_infinity {bits : Nat} {negative : Bool} (hbits : bits < 2 ^ 64)
    (h : binary64.decode bits = .infinite negative) :
    binary64.withSign negative binary64.infinity = bits := by
  simp only [BinaryFormat.decode] at h
  split at h
  · cases h
  split at h
  · rename_i hmagnitude
    rw [← Numeral.infinite.inj h, ← hmagnitude, withSign_mod hbits]
  · split at h <;> cases h

/-- **A finite number is read back from its text.** -/
theorem bits?_render {bits : UInt64} {m : Nat} {negative : Bool} {e : Int}
    (h : binary64.decode bits.toNat = .finite negative m e) :
    bits? (render constantStyle binary64 bits.toNat).toList = some bits := by
  obtain ⟨body, htext, hrender⟩ := render_of_decode h
  obtain ⟨d, hd, hvalue⟩ := htext.magnitude?
  have hsign : binary64.withSign negative (d.round binary64) = bits.toNat := by
    rw [Decimal.round_congr hvalue, round_shortest h, withSign_of_decode bits.toNat_lt h]
  rw [hrender]
  cases negative with
  | true => simp [bits?, hd, hsign]
  | false =>
    obtain ⟨c, rest, rfl, hc⟩ := htext.exists_eq_cons
    have hminus : c ≠ '-' := by
      rintro rfl
      cases hc
    have hplus : c ≠ '+' := by
      rintro rfl
      cases hc
    simp_all [bits?]

end TreeCode.Number
