import TreeCode.Proofs.Addressing
import TreeCode.Proofs.Finishing

/-!
# Constants of AArch64

The words that are made for a constant leave it in its register, whatever the constant is: those
that leave out the halfwords that are zero, those that set every halfword and can be filled later,
and those that pass through `x16` on the way to a vector register (`materializesExactly`).  For the
last ones `follow?` adds the moves between the banks to the words that `execute?` knows.
-/

namespace TreeCode.A64

variable {c d e : Core} {dst src r : Register} {bytes : List UInt8} {touches : List Touch}

/-! ## Moves between the banks -/

/-- Copies a general purpose register or its low 32 bits into a vector register, whose bits above
are cleared, if a word says so.  The two have the same width. -/
def moveToVector? (word : UInt32) (c : Core) : Option Core :=
  let n := word.toNat
  let wide := n / 2 ^ 31 == 1
  if n / 2 ^ 24 % 2 ^ 7 = 0x1e ∧ n / 2 ^ 22 % 4 = wide.toNat ∧ n / 2 ^ 10 % 2 ^ 12 = 0x9c0 then
    some (c.writeVector (registerField n 0)
      (BitVec.ofNat 128 (narrowed wide (c.read (registerField n 5))).toNat))
  else none

/-- Does what the words of some bytes say, one after the other; moves between the banks are among
them. -/
def follow? : List UInt8 → Core → Option Core
  | [], c => some c
  | b₀ :: b₁ :: b₂ :: b₃ :: rest, c => do
    let word := UInt32.ofNat (ofLittleEndian [b₀, b₁, b₂, b₃])
    let c ← ((step? word c).map Prod.fst).or (moveToVector? word c)
    follow? rest c
  | _, _ => none

lemma follow?_wordBytes (word : UInt32) (rest : List UInt8) (c : Core) :
    follow? (wordBytes word ++ rest) c =
      (((step? word c).map Prod.fst).or (moveToVector? word c)).bind (follow? rest) := by
  have hword := ofLittleEndian_wordBytes word
  simp only [wordBytes, littleEndian, List.cons_append, List.nil_append] at hword ⊢
  simp only [follow?, hword, UInt32.ofNat_toNat]
  rfl

/-- What `execute?` does is done. -/
lemma follow?_append (h : execute? bytes c = some (d, touches)) (rest : List UInt8) :
    follow? (bytes ++ rest) c = follow? rest d := by
  fun_induction execute? bytes c generalizing touches with
  | case1 c =>
    obtain ⟨rfl, -⟩ := Prod.mk.inj (Option.some.inj h)
    rfl
  | case2 b₀ b₁ b₂ b₃ bytes c ih =>
    obtain ⟨⟨c', before⟩, hstep, h⟩ := Option.bind_eq_some_iff.mp h
    obtain ⟨⟨d', after⟩, hrest, h⟩ := Option.bind_eq_some_iff.mp h
    obtain ⟨rfl, -⟩ := Prod.mk.inj (Option.some.inj h)
    simp only [List.cons_append, follow?, hstep, Option.map_some, Option.some_or]
    exact ih c' hrest
  | case3 => cases h

/-- The word of a move between the banks. -/
lemma toNat_movToVector (double : Bool) : (Inst.movToVector double dst src).encode.toNat =
    2 ^ 16 * (2 ^ 15 * double.toNat + 2 ^ 8 * 0x1e + 2 ^ 6 * double.toNat + 0x27) +
      2 ^ 5 * src.val + dst.val := by
  obtain ⟨hsrc, -, -⟩ := toNat_field src
  obtain ⟨-, hdst, -⟩ := toNat_field dst
  have hpattern : (toVectorPattern double).toNat =
      2 ^ 16 * (2 ^ 15 * double.toNat + 2 ^ 8 * 0x1e + 2 ^ 6 * double.toNat + 0x27) := by
    cases double <;> rfl
  have hlow : (field src 5 ||| field dst 0).toNat = 2 ^ 5 * src.val + dst.val := by
    rw [toNat_or_of_lt hsrc (by omega), hsrc, hdst]
  rw [Inst.encode, UInt32.or_assoc, toNat_or_of_lt hpattern (by omega), hlow, hpattern]
  omega

/-- A move between the banks sets a vector register. -/
lemma follow?_movToVector (double : Bool) (c : Core) :
    follow? (encodeAll [.movToVector double dst src]) c =
      some (c.writeVector dst (BitVec.ofNat 128 (narrowed double (c.read src)).toNat)) := by
  have hword := @toNat_movToVector dst src double
  have hdst := dst.isLt
  have hsrc := src.isLt
  have hdouble := double.toNat_lt
  rw [encodeAll_cons, follow?_wordBytes]
  generalize (Inst.movToVector double dst src).encode = word at hword
  have hrd : registerField word.toNat 0 = dst :=
    Fin.ext (show word.toNat / 2 ^ 0 % 32 = _ by omega)
  have hrn : registerField word.toNat 5 = src :=
    Fin.ext (show word.toNat / 2 ^ 5 % 32 = _ by omega)
  have hhigh : word.toNat / 2 ^ 24 = 2 ^ 7 * double.toNat + 0x1e := by omega
  have hwide : word.toNat / 2 ^ 31 = double.toNat := by omega
  have hbit : (double.toNat == 1) = double := by cases double <;> rfl
  have hstep : step? word c = none := by
    simp only [step?]
    rw [if_neg (by omega), if_neg (by omega), if_neg (by omega)]
  have hmove : moveToVector? word c =
      some (c.writeVector dst (BitVec.ofNat 128 (narrowed double (c.read src)).toNat)) := by
    simp only [moveToVector?, hrd, hrn, hwide, hbit]
    rw [if_pos ⟨by omega, by omega, by omega⟩]
  rw [hstep, hmove]
  rfl

/-! ## Constants -/

lemma narrowed_narrowed (wide : Bool) (value : UInt64) :
    narrowed wide (narrowed wide value) = narrowed wide value := by
  cases wide with
  | true => rfl
  | false => exact congrArg UInt32.toUInt64 (UInt32.toUInt32_toUInt64 value.toUInt32)

lemma emission_movImm {index : Nat} (hr : general index = .ok r) (value : Int64) (wide : Bool) :
    Isa.aarch64.emission (.movImm index value wide) =
      ⟨encodeAll (movWide r value.toUInt64 wide), none⟩ := by
  simp only [Isa.emission, select, selectUnlimited, hr, Except.ok_bind]
  rfl

lemma emission_fmovImm {index : Nat} (hr : vector index = .ok r) (bits : UInt64) (double : Bool) :
    Isa.aarch64.emission (.fmovImm index bits double) =
      ⟨encodeAll (movWide x16 bits double ++ [.movToVector double r x16]), none⟩ := by
  simp only [Isa.emission, select, selectUnlimited, hr, Except.ok_bind]
  rfl

/-- How a number gets into registers: `narrowed` is the number itself or its low 32 bits. -/
structure MaterializesExactly (value : UInt64) : Prop where
  /-- The moves of the halfwords that are not zero set the register, and nothing else. -/
  movWide : ∀ dst wide c,
    execute? (encodeAll (movWide dst value wide)) c =
      some (c.write dst (narrowed wide value), [])
  /-- The moves of all halfwords do so in four words. -/
  movAbsolute : ∀ dst, (encodeAll (movAbsolute dst value)).length = 4 * 4 ∧
    ∀ c, execute? (encodeAll (movAbsolute dst value)) c = some (c.write dst value, [])
  /-- Wherever the moves of a zero stand in code, filling them gives the moves of the number. -/
  filled : ∀ dst front back,
    (Isa.aarch64.fillIndirect (front ++ encodeAll (A64.movAbsolute dst 0) ++ back).toArray
        front.length value).toList =
      front ++ encodeAll (A64.movAbsolute dst value) ++ back
  /-- A register of the general purpose pool is set to an integer. -/
  movImm : ∀ index < Isa.aarch64.pool .general, ∀ wide, ∃ r, general index = .ok r ∧
    (Isa.aarch64.emission (.movImm index value.toInt64 wide)).failure = none ∧
    ∀ c, execute? (Isa.aarch64.emission (.movImm index value.toInt64 wide)).bytes c =
      some ({ c with general := Function.update c.general r (narrowed wide value) }, [])
  /-- A register of the vector pool is set to the bits of a floating point number, by way of
  `x16`. -/
  fmovImm : ∀ index < Isa.aarch64.pool .vector, ∀ double, ∃ r, vector index = .ok r ∧
    (Isa.aarch64.emission (.fmovImm index value double)).failure = none ∧
    ∀ c, follow? (Isa.aarch64.emission (.fmovImm index value double)).bytes c =
      some { c with
        general := Function.update c.general x16 (narrowed double value)
        vector := Function.update c.vector r (BitVec.ofNat 128 (narrowed double value).toNat) }

/-- **Constants are put into registers exactly.** -/
theorem materializesExactly (value : UInt64) : MaterializesExactly value where
  movWide dst wide c := by
    have h := execute?_movWide dst value wide [] c
    rwa [List.append_nil] at h
  movAbsolute dst := by
    refine ⟨by simp [Isa.encodeAll_movAbsolute], fun c => ?_⟩
    have h := execute?_movAbsolute dst value [] c
    rwa [List.append_nil] at h
  filled dst front back := Isa.toList_fillMoves dst value List.toList_toArray
  movImm index hindex wide := by
    obtain ⟨r, hr⟩ := exists_general hindex
    rw [emission_movImm hr, UInt64.toUInt64_toInt64]
    refine ⟨r, hr, rfl, fun c => ?_⟩
    have h := execute?_movWide r value wide [] c
    rw [List.append_nil, Core.write_of_ne (general_ne hr).1] at h
    exact h
  fmovImm index hindex double := by
    obtain ⟨r, hr⟩ := exists_vector hindex
    rw [emission_fmovImm hr, encodeAll_append]
    refine ⟨r, hr, rfl, fun c => ?_⟩
    have h := execute?_movWide x16 value double [] c
    rw [List.append_nil] at h
    rw [follow?_append h, follow?_movToVector, Core.read_write_self (by decide), narrowed_narrowed,
      Core.write_of_ne (by decide)]
    rfl

/-- One word sets a register to a number of which only one halfword is not zero. -/
theorem materializesExactly_sparse : ∃ d,
    (Isa.aarch64.emission (.movImm 0 (0x567800000000 : UInt64).toInt64 true)).bytes.length = 4 ∧
      execute? (Isa.aarch64.emission (.movImm 0 (0x567800000000 : UInt64).toInt64 true)).bytes
          stamped = some (d, []) ∧
        d.general ⟨9, by decide⟩ = 0x567800000000 ∧ d.general ⟨10, by decide⟩ = 0xa000 := by
  obtain ⟨r, hr, -, hexecute⟩ :=
    (materializesExactly 0x567800000000).movImm 0 (by decide) true
  cases hr
  exact ⟨_, rfl, hexecute stamped, rfl, rfl⟩

end TreeCode.A64
