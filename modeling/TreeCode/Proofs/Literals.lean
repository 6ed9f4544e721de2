import TreeCode.Proofs.Decimals
import TreeCode.Proofs.Scanning
import TreeCode.Source.Expr
import TreeCode.Text.Hex

/-!
# Literals that read back

Integers in base 10 and 16 and floating point numbers, as they are written: each is scanned as one
number and has the value that was written.
-/

namespace TreeCode.Source

open Number (DecimalText)

/-! ## One number -/

lemma numberRun_cons {c : Char} {cs : List Char} (last : Char) (h : isWordChar c ∨ c = '.') :
    numberRun last (c :: cs) = c :: numberRun c cs := by
  have hcontinues : (isWordChar c || c == '.' || (isSign c && (last == 'e' || last == 'E'))) := by
    rcases h with h | rfl
    · rw [h, Bool.true_or, Bool.true_or]
    · rfl
  rw [numberRun, if_pos hcontinues]

/-- Letters, digits and points go on with a number. -/
lemma numberRun_eq_self {cs : List Char} (last : Char) (h : ∀ c ∈ cs, isWordChar c ∨ c = '.') :
    numberRun last cs = cs := by
  induction cs generalizing last with
  | nil => rfl
  | cons c cs ih =>
    obtain ⟨hc, hcs⟩ := List.forall_mem_cons.mp h
    rw [numberRun_cons last hc, ih c hcs]

/-- Characters that go on with a number whatever stands in front of them. -/
lemma numberRun_append_of_mem {cs rest : List Char} {final : Char} (last : Char)
    (h : ∀ c ∈ cs ++ [final], isWordChar c ∨ c = '.') :
    numberRun last (cs ++ final :: rest) = cs ++ final :: numberRun final rest := by
  induction cs generalizing last with
  | nil =>
    have hc := h final (by simp)
    rw [List.nil_append, numberRun_cons last hc, List.nil_append]
  | cons c cs ih =>
    obtain ⟨hc, hcs⟩ := List.forall_mem_cons.mp h
    rw [List.cons_append, numberRun_cons last hc, ih c hcs, List.cons_append]

lemma isWordChar_of_isDigit {c : Char} (h : c.isDigit) : isWordChar c := by
  simp [isWordChar, Char.isAlphanum, h]

lemma isNumberStart_of_isDigit {c : Char} (h : c.isDigit) : isNumberStart c := by
  simp [isNumberStart, h]

/-- A sign in front of a number that has none. -/
lemma IsNumber.cons_minus {cs : List Char} {c : Char} (h : IsNumber (c :: cs))
    (hc : isWordChar c) : IsNumber ('-' :: c :: cs) := by
  obtain ⟨_, _, heq, -, hrun⟩ := h
  obtain ⟨rfl, rfl⟩ := List.cons.inj heq
  refine ⟨'-', c :: cs, rfl, rfl, ?_⟩
  rw [numberRun_cons '-' (.inl hc), hrun]

/-! ## Integers -/

lemma isNumber_toDigits (n : Nat) : IsNumber (Nat.toDigits 10 n) := by
  obtain ⟨c, cs, hcs, hc, -⟩ := Number.exists_toDigits_eq_cons n
  refine ⟨c, cs, hcs, isNumberStart_of_isDigit hc, numberRun_eq_self c fun c' hc' => .inl ?_⟩
  exact isWordChar_of_isDigit (Number.isDigit_of_mem_toDigits (hcs ▸ List.mem_cons_of_mem _ hc'))

/-- An integer is scanned as one number. -/
lemma isNumber_toString (v : Int) : IsNumber (toString v).toList := by
  rw [Number.toList_toString]
  obtain ⟨c, cs, hcs, hc, -⟩ := Number.exists_toDigits_eq_cons v.natAbs
  have hnumber := isNumber_toDigits v.natAbs
  rw [hcs] at hnumber ⊢
  split
  · exact hnumber.cons_minus (isWordChar_of_isDigit hc)
  · exact hnumber

/-- A natural number is written as the integer that it is. -/
lemma toString_natCast (n : Nat) : toString (n : Int) = toString n := by
  refine String.toList_inj.mp ?_
  rw [Number.toList_toString, if_neg (by omega), List.nil_append, Int.natAbs_natCast,
    Nat.toString_eq_ofList_toDigits, String.toList_ofList]

/-- Digits are no hexadecimal number. -/
lemma hexDigits?_eq_none {cs : List Char} (h : ∀ c ∈ cs.tail.head?, c ≠ 'x' ∧ c ≠ 'X') :
    hexDigits? cs = none := by
  unfold hexDigits?
  split
  · exact absurd rfl (h 'x' rfl).1
  · exact absurd rfl (h 'X' rfl).2
  · rfl

lemma splitSign_of_isDigit {c : Char} {cs : List Char} (hminus : c ≠ '-') (hplus : c ≠ '+') :
    splitSign (c :: cs) = (false, c :: cs) := by
  unfold splitSign
  split <;> simp_all

/-- Splitting off the sign of an integer. -/
lemma splitSign_toString (v : Int) :
    splitSign (toString v).toList = (decide (v < 0), Nat.toDigits 10 v.natAbs) := by
  rw [Number.toList_toString]
  obtain ⟨c, cs, hcs, -, hminus, hplus⟩ := Number.exists_toDigits_eq_cons v.natAbs
  by_cases hneg : v < 0
  · rw [if_pos hneg, decide_eq_true hneg]
    rfl
  · rw [if_neg hneg, decide_eq_false hneg, List.nil_append, hcs, splitSign_of_isDigit hminus hplus]

/-- Digits behind a sign or none are a decimal integer. -/
lemma literalValue?_of_digits {literal digits : List Char} {negative : Bool}
    (hsplit : splitSign literal = (negative, digits)) (hne : digits ≠ [])
    (hdigits : ∀ c ∈ digits, c.isDigit) :
    literalValue? literal = (decimalInteger? negative (Number.digitsValue digits)).map .int := by
  have hhex : hexDigits? digits = none := by
    refine hexDigits?_eq_none fun c hc => ?_
    have hdigit := hdigits c (List.mem_of_mem_tail (List.mem_of_mem_head? hc))
    constructor
    · rintro rfl
      cases hdigit
    · rintro rfl
      cases hdigit
  have hall : (!digits.isEmpty && digits.all Char.isDigit) = true := by
    simpa [hne] using hdigits
  simp only [literalValue?, hsplit, hhex, hall, if_true]

/-- **An integer is read back.** -/
lemma literalValue?_toString {v : Int} (hlow : -2 ^ 63 ≤ v) (hhigh : v < 2 ^ 63) :
    literalValue? (toString v).toList = some (.int (Int64.ofInt v)) := by
  have hinteger : decimalInteger? (decide (v < 0)) v.natAbs = some (Int64.ofInt v) := by
    rw [decimalInteger?]
    by_cases hneg : v < 0
    · have habs : -((v.natAbs : Nat) : Int) = v := by omega
      rw [if_pos (decide_eq_true hneg), if_pos (by omega), habs]
    · have habs : ((v.natAbs : Nat) : Int) = v := by omega
      have hrange : v.natAbs < wordRange := by
        rw [wordRange]
        omega
      rw [if_neg (by simpa using hneg), if_pos hrange, habs]
  rw [literalValue?_of_digits (splitSign_toString v) (by simp)
    fun _ => Number.isDigit_of_mem_toDigits, Number.digitsValue_toDigits, hinteger]
  rfl

/-! ## Hexadecimal numbers -/

lemma hexDigit?_digitChar {k : Nat} (h : k < 16) : hexDigit? (Nat.digitChar k) = some k := by
  decide +revert

/-- The digits of a number are those of its upper part and a last one. -/
lemma toDigits_hex {n : Nat} (h : 16 ≤ n) :
    Nat.toDigits 16 n = Nat.toDigits 16 (n / 16) ++ [Nat.digitChar (n % 16)] := by
  have hlast : n % 16 < 16 := Nat.mod_lt n (by decide)
  rw [← Nat.toDigits_of_lt_base hlast, Nat.toDigits_append_toDigits (by decide) (by omega) hlast,
    Nat.div_add_mod]

lemma foldlM_hexDigits (n : Nat) :
    (Nat.toDigits 16 n).foldlM (fun n c => (hexDigit? c).map (16 * n + ·)) 0 = some n := by
  induction n using Nat.strong_induction_on with
  | _ n ih =>
    rcases Nat.lt_or_ge n 16 with hlt | hge
    · rw [Nat.toDigits_of_lt_base hlt]
      simp [hexDigit?_digitChar hlt]
    · have hlast : n % 16 < 16 := Nat.mod_lt n (by decide)
      rw [toDigits_hex hge, List.foldlM_append, ih (n / 16) (by omega)]
      simp [hexDigit?_digitChar hlast, Nat.div_add_mod]

lemma isWordChar_of_mem_hexDigits {n : Nat} {c : Char} (h : c ∈ Nat.toDigits 16 n) :
    isWordChar c := by
  have hdigit {k : Nat} (hk : k < 16) : isWordChar (Nat.digitChar k) := by
    decide +revert
  induction n using Nat.strong_induction_on with
  | _ n ih =>
    rcases Nat.lt_or_ge n 16 with hlt | hge
    · rw [Nat.toDigits_of_lt_base hlt, List.mem_singleton] at h
      exact h ▸ hdigit hlt
    · rw [toDigits_hex hge, List.mem_append, List.mem_singleton] at h
      rcases h with h | rfl
      · exact ih (n / 16) (by omega) h
      · exact hdigit (Nat.mod_lt n (by decide))

lemma toList_hex (n : Nat) : (Text.hex n).toList = '0' :: 'x' :: Nat.toDigits 16 n := by
  simp [Text.hex, Text.hexDigits]

lemma isNumber_hex (n : Nat) : IsNumber (Text.hex n).toList := by
  refine ⟨'0', 'x' :: Nat.toDigits 16 n, toList_hex n, rfl, numberRun_eq_self '0' ?_⟩
  exact List.forall_mem_cons.mpr ⟨.inl rfl, fun c hc => .inl (isWordChar_of_mem_hexDigits hc)⟩

/-- **A hexadecimal number is read back.** -/
lemma literalValue?_hex {n : Nat} (h : n < 2 ^ 64) :
    literalValue? (Text.hex n).toList = some (.int (Int64.ofInt n)) := by
  have hvalue : hexValue? (Nat.toDigits 16 n) = some n := by
    rw [hexValue?, if_neg (by simp), foldlM_hexDigits]
  have hrange : n < wordRange := h
  rw [toList_hex]
  simp [literalValue?, splitSign, hexDigits?, hvalue, hrange]

/-! ## Floating point numbers -/

variable {cs : List Char} {v : ℚ}

lemma isDigit_or_of_mem_toString {e : Int} {c : Char} (h : c ∈ (toString e).toList) :
    c.isDigit ∨ c = '-' := by
  rw [Number.toList_toString, List.mem_append] at h
  rcases h with h | h
  · split at h
    · exact .inr (List.mem_singleton.mp h)
    · cases h
  · exact .inl (Number.isDigit_of_mem_toDigits h)

/-- The characters of a number with a point or an exponent. -/
lemma isDigit_or_of_mem_decimalText {c : Char} (h : DecimalText cs v) (hc : c ∈ cs) :
    c.isDigit ∨ c = '.' ∨ c = 'e' ∨ c = '-' := by
  cases h with
  | positional whole fraction _ hdigits =>
    rcases List.mem_append.mp hc with hc | hc
    · exact .inl (hdigits c (List.mem_append_left _ hc))
    · rcases List.mem_cons.mp hc with rfl | hc
      · exact .inr (.inl rfl)
      · exact .inl (hdigits c (List.mem_append_right _ hc))
  | scientific lead fraction e hdigits =>
    obtain ⟨hlead, hfraction⟩ := List.forall_mem_cons.mp hdigits
    simp only [List.mem_cons, List.mem_append] at hc
    rcases hc with rfl | hc | rfl | hc
    · exact .inl hlead
    · split at hc
      · cases hc
      · rcases List.mem_cons.mp hc with rfl | hc
        · exact .inr (.inl rfl)
        · exact .inl (hfraction c hc)
    · exact .inr (.inr (.inl rfl))
    · rcases isDigit_or_of_mem_toString hc with hc | rfl
      · exact .inl hc
      · exact .inr (.inr (.inr rfl))

/-- An exponent goes on with a number, its sign included. -/
lemma numberRun_exponent (e : Int) : numberRun 'e' (toString e).toList = (toString e).toList := by
  have hdigits (last : Char) :
      numberRun last (Nat.toDigits 10 e.natAbs) = Nat.toDigits 10 e.natAbs :=
    numberRun_eq_self last fun c hc =>
      .inl (isWordChar_of_isDigit (Number.isDigit_of_mem_toDigits hc))
  rw [Number.toList_toString]
  split
  · rw [List.singleton_append, numberRun, if_pos (by decide), hdigits]
  · exact hdigits 'e'

/-- A number with a point or an exponent is scanned as one number. -/
lemma isNumber_decimalText (h : DecimalText cs v) : IsNumber cs := by
  obtain ⟨c, run, hcs, hc⟩ := h.exists_eq_cons
  refine ⟨c, run, hcs, isNumberStart_of_isDigit hc, ?_⟩
  cases h with
  | positional whole fraction _ hdigits =>
    refine numberRun_eq_self c fun c' hc' => ?_
    have hmem : c' ∈ whole ++ '.' :: fraction := hcs ▸ List.mem_cons_of_mem c hc'
    rcases List.mem_append.mp hmem with hmem | hmem
    · exact .inl (isWordChar_of_isDigit (hdigits c' (List.mem_append_left _ hmem)))
    · rcases List.mem_cons.mp hmem with rfl | hmem
      · exact .inr rfl
      · exact .inl (isWordChar_of_isDigit (hdigits c' (List.mem_append_right _ hmem)))
  | scientific lead fraction e hdigits =>
    obtain ⟨-, rfl⟩ := List.cons.inj hcs
    rw [numberRun_append_of_mem, numberRun_exponent]
    intro c' hc'
    rcases List.mem_append.mp hc' with hc' | hc'
    · split at hc'
      · cases hc'
      · rcases List.mem_cons.mp hc' with rfl | hc'
        · exact .inr rfl
        · exact .inl (isWordChar_of_isDigit (hdigits c' (List.mem_cons_of_mem _ hc')))
    · rw [List.mem_singleton.mp hc']
      exact .inl rfl

/-- Only digits do not make a number with a point or an exponent. -/
lemma all_isDigit_decimalText (h : DecimalText cs v) : cs.all Char.isDigit = false := by
  rw [List.all_eq_false]
  cases h with
  | positional => exact ⟨'.', by simp, by decide⟩
  | scientific => exact ⟨'e', by simp, by decide⟩

variable {bits : UInt64}

/-- A finite number is written as one number, which is no integer. -/
lemma render_finite {m : Nat} {negative : Bool} {e : Int}
    (h : Number.binary64.decode bits.toNat = .finite negative m e) :
    IsNumber (Number.render Number.constantStyle Number.binary64 bits.toNat).toList ∧
      literalValue? (Number.render Number.constantStyle Number.binary64 bits.toNat).toList =
        some (.float bits) := by
  obtain ⟨body, htext, hrender⟩ := Number.render_of_decode h
  have hbits := Number.bits?_render h
  have hnumber := isNumber_decimalText htext
  have hall := all_isDigit_decimalText htext
  have hhex : hexDigits? body = none := by
    refine hexDigits?_eq_none fun c hc => ?_
    have hchar := isDigit_or_of_mem_decimalText htext
      (List.mem_of_mem_tail (List.mem_of_mem_head? hc))
    constructor
    · rintro rfl
      revert hchar
      decide
    · rintro rfl
      revert hchar
      decide
  obtain ⟨c, rest, rfl, hc⟩ := htext.exists_eq_cons
  have hsplit : splitSign ((if negative then ['-'] else []) ++ c :: rest) =
      (negative, c :: rest) := by
    cases negative with
    | true => rfl
    | false =>
      refine splitSign_of_isDigit ?_ ?_
      · rintro rfl
        cases hc
      · rintro rfl
        cases hc
  rw [hrender] at hbits ⊢
  refine ⟨?_, ?_⟩
  · cases negative with
    | true => exact hnumber.cons_minus (isWordChar_of_isDigit hc)
    | false => exact hnumber
  · simp only [literalValue?, hsplit, hhex, hall, Bool.and_false, hbits]
    rfl

/-- Negative infinity is written as a number too. -/
lemma render_negative_infinite (h : Number.binary64.decode bits.toNat = .infinite true) :
    IsNumber (Number.render Number.constantStyle Number.binary64 bits.toNat).toList ∧
      literalValue? (Number.render Number.constantStyle Number.binary64 bits.toNat).toList =
        some (.float bits) := by
  have hbits : bits = UInt64.ofNat (Number.binary64.withSign true Number.binary64.infinity) := by
    rw [Number.withSign_infinity bits.toNat_lt h, UInt64.ofNat_toNat]
  have hrender : Number.render Number.constantStyle Number.binary64 bits.toNat = "-inf" := by
    simp [Number.render, h]
  rw [hrender]
  refine ⟨⟨'-', ['i', 'n', 'f'], rfl, rfl, by decide⟩, ?_⟩
  rw [hbits]
  rfl

end TreeCode.Source
