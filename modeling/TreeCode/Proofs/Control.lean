import Mathlib.Logic.Function.Basic
import Mathlib.Tactic.Common
import Mathlib.Tactic.IntervalCases
import TreeCode.Assembler
import TreeCode.Proofs.Outcome
import TreeCode.Proofs.Patching
import TreeCode.X64.Decoding

/-!
# Where control goes

What the processor does with the bytes of a transfer: `Isa.control?` decodes instructions and
follows them, with the numbers that they put into registers, up to the first one that passes control
on to another place.  The bytes of a jump pass it to the address that the jump was encoded for, on
both instruction sets and in both forms, whatever stands in the registers before.
-/

namespace TreeCode

/-- How control leaves a sequence of instructions. -/
inductive Control where
  | jump (target : UInt64)
  /-- A call, and where it returns to. -/
  | call (target back : UInt64)
  deriving DecidableEq, Repr

/-! ## Distances -/

/-- The residue of a number that lies nearest to zero is the same 64-bit number. -/
lemma ofInt_bmod (d : Int) : UInt64.ofInt (d.bmod (2 ^ 64)) = UInt64.ofInt d := by
  have hrange : (2 : Int) ^ 64 = ((2 ^ 64 : Nat) : Int) := rfl
  rw [UInt64.ofInt, UInt64.ofInt, hrange, Int.bmod_emod]

lemma ofInt_natCast (n : Nat) : UInt64.ofInt (n : Int) = UInt64.ofNat n := by
  apply UInt64.toNat_inj.mp
  rw [UInt64.ofInt, UInt64.toNat_ofNat', UInt64.toNat_ofNat']
  omega

lemma ofInt_sub (a b : Int) : UInt64.ofInt (a - b) = UInt64.ofInt a - UInt64.ofInt b := by
  rw [Int.sub_eq_add_neg, UInt64.ofInt_add, UInt64.ofInt_neg, UInt64.sub_eq_add_neg]

lemma ofInt_toInt_toInt64 (x : UInt64) : UInt64.ofInt x.toInt64.toInt = x := by
  rw [← Int64.toInt_toBitVec, UInt64.toBitVec_toInt64, BitVec.toInt_eq_toNat_bmod, ofInt_bmod,
    ofInt_natCast, UInt64.toNat_toBitVec, UInt64.ofNat_toNat]

lemma ofInt_toInt_ofInt (d : Int) : UInt64.ofInt (Int64.ofInt d).toInt = UInt64.ofInt d := by
  rw [Int64.toInt_ofInt]
  exact ofInt_bmod d

/-! ## x86-64 -/

namespace X64

/-- Follows at most `fuel` instructions from the front of some bytes.  `holds` tells which
conditions hold, `registers` what stands in the registers, and `here` where the bytes are. -/
def control? (holds : Condition → Bool) :
    (fuel : Nat) → (registers : Nat → UInt64) → (here : UInt64) → List UInt8 → Option Control
  | 0, _, _, _ => none
  | fuel + 1, registers, here, bytes =>
    match decode? bytes with
    | none => none
    | some (i, length) =>
      let next := here + UInt64.ofNat length
      match i with
      | .movImm64 r value =>
        control? holds fuel (Function.update registers r value) next (bytes.drop length)
      | .jumpIf c distance =>
        if holds c then some (.jump (next + UInt64.ofInt distance.toInt))
        else control? holds fuel registers next (bytes.drop length)
      | .jump distance => some (.jump (next + UInt64.ofInt distance.toInt))
      | .call distance => some (.call (next + UInt64.ofInt distance.toInt) next)
      | .jumpReg r => some (.jump (registers r))
      | .callReg r => some (.call (registers r) next)
      | _ => none

variable {holds : Condition → Bool} {fuel : Nat} {registers : Nat → UInt64} {here : UInt64}

lemma decode?_of_instruction {i : Inst} {bytes rest : List UInt8}
    (h : instruction (bytes ++ rest) = some (i, rest)) :
    decode? (bytes ++ rest) = some (i, bytes.length) := by
  simp [decode?, h]

lemma number_wordBytes (w : UInt32) (rest : List UInt8) :
    Decoder.number 4 (wordBytes w ++ rest) = some (w.toNat, rest) := by
  simp [Decoder.number, ofLittleEndian_wordBytes]

lemma number_doubleWordBytes (w : UInt64) (rest : List UInt8) :
    Decoder.number 8 (doubleWordBytes w ++ rest) = some (w.toNat, rest) := by
  simp [Decoder.number, ofLittleEndian_doubleWordBytes]

lemma signed32_wordBytes (d : Int32) (rest : List UInt8) :
    Decoder.signed32 (wordBytes d.toUInt32 ++ rest) = some (d, rest) := by
  have hrun (bytes : List UInt8) : Decoder.signed32 bytes =
      (Decoder.number 4 bytes).bind fun p => some ((UInt32.ofNat p.1).toInt32, p.2) := rfl
  rw [hrun, number_wordBytes, Option.bind_some, UInt32.ofNat_toNat, Int32.toInt32_toUInt32]

lemma instruction_jump (d : Int32) (rest : List UInt8) :
    instruction ((Inst.jump d).encode ++ rest) = some (.jump d, rest) := by
  have hrun (bytes : List UInt8) : instruction (0xe9 :: bytes) =
      (Decoder.signed32 bytes).bind fun p => some (.jump p.1, p.2) := rfl
  rw [Inst.encode, List.cons_append, hrun, signed32_wordBytes, Option.bind_some]

lemma decode?_jump (d : Int32) (rest : List UInt8) :
    decode? ((Inst.jump d).encode ++ rest) = some (.jump d, 5) :=
  decode?_of_instruction (instruction_jump d rest)

lemma instruction_call (d : Int32) (rest : List UInt8) :
    instruction ((Inst.call d).encode ++ rest) = some (.call d, rest) := by
  have hrun (bytes : List UInt8) : instruction (0xe8 :: bytes) =
      (Decoder.signed32 bytes).bind fun p => some (.call p.1, p.2) := rfl
  rw [Inst.encode, List.cons_append, hrun, signed32_wordBytes, Option.bind_some]

lemma decode?_call (d : Int32) (rest : List UInt8) :
    decode? ((Inst.call d).encode ++ rest) = some (.call d, 5) :=
  decode?_of_instruction (instruction_call d rest)

lemma decode?_jumpReg (rest : List UInt8) :
    decode? ((Inst.jumpReg r11).encode ++ rest) = some (.jumpReg r11, 3) :=
  decode?_of_instruction rfl

lemma decode?_callReg (rest : List UInt8) :
    decode? ((Inst.callReg r11).encode ++ rest) = some (.callReg r11, 3) :=
  decode?_of_instruction rfl

lemma instruction_jumpIf (c : Condition) (d : Int8) (rest : List UInt8) :
    instruction ((Inst.jumpIf c d).encode ++ rest) = some (.jumpIf c d, rest) := by
  cases c <;> rfl

lemma decode?_jumpIf (c : Condition) (d : Int8) (rest : List UInt8) :
    decode? ((Inst.jumpIf c d).encode ++ rest) = some (.jumpIf c d, 2) :=
  decode?_of_instruction (instruction_jumpIf c d rest)

lemma decode?_movImm64 (value : UInt64) (rest : List UInt8) :
    decode? ((Inst.movImm64 r11 value).encode ++ rest) = some (.movImm64 r11 value, 10) := by
  refine decode?_of_instruction ?_
  have hbytes : (Inst.movImm64 r11 value).encode = 0x49 :: 0xbb :: doubleWordBytes value := rfl
  have hrun (bytes : List UInt8) : instruction (0x49 :: 0xbb :: bytes) =
      (Decoder.number 8 bytes).bind fun p => some (.movImm64 r11 (UInt64.ofNat p.1), p.2) := rfl
  rw [hbytes, List.cons_append, List.cons_append, hrun, number_doubleWordBytes, Option.bind_some,
    UInt64.ofNat_toNat]

/-- The distance to a target leads there. -/
lemma add_distance {target : UInt64} {d : Int32} (h : distance here target = .ok d) :
    here + 5 + UInt64.ofInt d.toInt = target := by
  simp only [distance] at h
  split at h
  · rename_i hrange
    simp only [Except.ok.injEq] at h
    have hd : d.toInt = (target - (here + 5)).toInt64.toInt := by
      rw [← h]
      exact Int32.toInt_ofInt_of_le hrange.1 (by omega)
    rw [hd, ofInt_toInt_toInt64, UInt64.add_comm, UInt64.sub_add_cancel]
  · simp at h

lemma control?_jump {target : UInt64} {d : Int32} (h : distance here target = .ok d)
    (rest : List UInt8) :
    control? holds (fuel + 1) registers here (encodeAll [.jump d] ++ rest) =
      some (.jump target) := by
  simp only [control?, encodeAll, List.flatMap_singleton, decode?_jump]
  exact congrArg (some ∘ Control.jump) (add_distance h)

lemma control?_call {target : UInt64} {d : Int32} (h : distance here target = .ok d)
    (rest : List UInt8) :
    control? holds (fuel + 1) registers here (encodeAll [.call d] ++ rest) =
      some (.call target (here + 5)) := by
  simp only [control?, encodeAll, List.flatMap_singleton, decode?_call]
  exact congrArg (fun t => some (Control.call t (here + 5))) (add_distance h)

lemma control?_movImm64 (value : UInt64) (rest : List UInt8) :
    control? holds (fuel + 1) registers here ((Inst.movImm64 r11 value).encode ++ rest) =
      control? holds fuel (Function.update registers r11 value) (here + 10) rest := by
  have hdrop : ((Inst.movImm64 r11 value).encode ++ rest).drop 10 = rest := List.drop_left' rfl
  rw [control?, decode?_movImm64]
  simp only [hdrop]
  rfl

lemma control?_viaRegister (target : UInt64) (rest : List UInt8) :
    control? holds (fuel + 2) registers here (encodeAll (viaRegister false target) ++ rest) =
      some (.jump target) := by
  have hbytes : encodeAll (viaRegister false target) ++ rest =
      (Inst.movImm64 r11 target).encode ++ ((Inst.jumpReg r11).encode ++ rest) := by
    simp [encodeAll, viaRegister]
  rw [hbytes, control?_movImm64, control?, decode?_jumpReg]
  exact congrArg (some ∘ Control.jump) (Function.update_self _ _ _)

lemma control?_callViaRegister (target : UInt64) (rest : List UInt8) :
    control? holds (fuel + 2) registers here (encodeAll (viaRegister true target) ++ rest) =
      some (.call target (here + 13)) := by
  have hbytes : encodeAll (viaRegister true target) ++ rest =
      (Inst.movImm64 r11 target).encode ++ ((Inst.callReg r11).encode ++ rest) := by
    simp [encodeAll, viaRegister]
  have hback : here + 10 + UInt64.ofNat 3 = here + 13 := UInt64.add_assoc _ _ _
  rw [hbytes, control?_movImm64, control?, decode?_callReg]
  simp only [Function.update_self, hback]

lemma control?_jumpIf (c : Condition) (d : Int8) (rest : List UInt8) :
    control? holds (fuel + 1) registers here (encodeAll [.jumpIf c d] ++ rest) =
      if holds c then some (.jump (here + 2 + UInt64.ofInt d.toInt))
      else control? holds fuel registers (here + 2) rest := by
  simp only [encodeAll, List.flatMap_singleton]
  rw [control?]
  simp only [decode?_jumpIf]
  rfl

end X64

/-! ## AArch64 -/

namespace A64

/-- The signed number that the low bits of a number make. -/
def signedField (bits n : Nat) : Int := (n : Int).bmod (2 ^ bits)

/-- The instruction of a word, if it passes control on or sets a halfword of a 64-bit register. -/
def decode? (word : UInt32) : Option Inst :=
  let n := word.toNat
  if n / 2 ^ 26 = 0x05 then some (.branch (UInt32.ofInt (signedField 26 n)))
  else if n / 2 ^ 26 = 0x25 then some (.call (UInt32.ofInt (signedField 26 n)))
  else if n / 2 ^ 24 = 0x54 ∧ n / 2 ^ 4 % 2 = 0 then
    (Condition.all.find? fun c => conditionCode c == UInt32.ofNat (n % 2 ^ 4)).map fun c =>
      .branchIf c (UInt32.ofInt (signedField 19 (n / 2 ^ 5)))
  else if n / 2 ^ 10 = 0x3587c0 ∧ n % 2 ^ 5 = 0 then some (.branchReg (Fin.ofNat 32 (n / 2 ^ 5)))
  else if n / 2 ^ 10 = 0x358fc0 ∧ n % 2 ^ 5 = 0 then some (.callReg (Fin.ofNat 32 (n / 2 ^ 5)))
  else if n / 2 ^ 23 = 0x1a5 then
    some (.movz true (n / 2 ^ 21 % 4) (UInt32.ofNat (n / 2 ^ 5 % 2 ^ 16)) (Fin.ofNat 32 n))
  else if n / 2 ^ 23 = 0x1e5 then
    some (.movk true (n / 2 ^ 21 % 4) (UInt32.ofNat (n / 2 ^ 5 % 2 ^ 16)) (Fin.ofNat 32 n))
  else none

/-- A number with the halfword at an index replaced. -/
def withHalfword (value : UInt64) (half : Nat) (imm : UInt32) : UInt64 :=
  let unit := 2 ^ (16 * half)
  UInt64.ofNat (value.toNat - value.toNat / unit % 2 ^ 16 * unit + imm.toNat * unit)

/-- Follows at most `fuel` instructions from the front of some bytes.  `holds` tells which
conditions hold, `registers` what stands in the registers, and `here` where the bytes are. -/
def control? (holds : Condition → Bool) :
    (fuel : Nat) → (registers : Nat → UInt64) → (here : UInt64) → List UInt8 → Option Control
  | fuel + 1, registers, here, b₀ :: b₁ :: b₂ :: b₃ :: rest =>
    match decode? (UInt32.ofNat (ofLittleEndian [b₀, b₁, b₂, b₃])) with
    | none => none
    | some i =>
      let next := here + 4
      let distant (words : UInt32) : UInt64 := here + UInt64.ofInt (4 * words.toInt32.toInt)
      match i with
      | .movz _ half imm r =>
        control? holds fuel (Function.update registers r (withHalfword 0 half imm)) next rest
      | .movk _ half imm r =>
        control? holds fuel (Function.update registers r (withHalfword (registers r) half imm)) next
          rest
      | .branchIf c words =>
        if holds c then some (.jump (distant words)) else control? holds fuel registers next rest
      | .branch words => some (.jump (distant words))
      | .call words => some (.call (distant words) next)
      | .branchReg r => some (.jump (registers r))
      | .callReg r => some (.call (registers r) next)
      | _ => none
  | _, _, _, _ => none

variable {holds : Condition → Bool} {fuel : Nat} {registers : Nat → UInt64} {here : UInt64}

lemma toNat_or_of_lt {a b : UInt32} {k m : Nat} (ha : a.toNat = 2 ^ k * m)
    (hb : b.toNat < 2 ^ k) : (a ||| b).toNat = a.toNat + b.toNat := by
  rw [UInt32.toNat_or, ha, Nat.two_pow_add_eq_or_of_lt hb]

lemma toNat_low26 (w : UInt32) : (w &&& 0x03ffffff).toNat = w.toNat % 2 ^ 26 := by
  rw [UInt32.toNat_and]
  exact Nat.and_two_pow_sub_one_eq_mod _ 26

lemma toNat_encode_branch (w : UInt32) :
    (Inst.branch w).encode.toNat = 0x05 * 2 ^ 26 + w.toNat % 2 ^ 26 := by
  have hlow := toNat_low26 w
  rw [Inst.encode, @toNat_or_of_lt _ _ 26 0x05 rfl (by omega), hlow]
  rfl

lemma toNat_encode_call (w : UInt32) :
    (Inst.call w).encode.toNat = 0x25 * 2 ^ 26 + w.toNat % 2 ^ 26 := by
  have hlow := toNat_low26 w
  rw [Inst.encode, @toNat_or_of_lt _ _ 26 0x25 rfl (by omega), hlow]
  rfl

/-- The field of 26 bits holds a signed number that fits it. -/
lemma signedField_ofInt {q : Int} {op n : Nat} (hlow : -2 ^ 25 ≤ q) (hhigh : q < 2 ^ 25)
    (hn : n = op * 2 ^ 26 + (UInt32.ofInt q).toNat % 2 ^ 26) : signedField 26 n = q := by
  rw [signedField, hn, UInt32.ofInt, UInt32.toNat_ofNat', Int.bmod_def]
  omega

lemma decode?_branch {q : Int} (hlow : -2 ^ 25 ≤ q) (hhigh : q < 2 ^ 25) :
    decode? (Inst.branch (UInt32.ofInt q)).encode = some (.branch (UInt32.ofInt q)) := by
  have h := toNat_encode_branch (UInt32.ofInt q)
  have hop : (Inst.branch (UInt32.ofInt q)).encode.toNat / 2 ^ 26 = 0x05 := by omega
  simp only [decode?, hop, if_true, signedField_ofInt hlow hhigh h]

lemma decode?_call {q : Int} (hlow : -2 ^ 25 ≤ q) (hhigh : q < 2 ^ 25) :
    decode? (Inst.call (UInt32.ofInt q)).encode = some (.call (UInt32.ofInt q)) := by
  have h := toNat_encode_call (UInt32.ofInt q)
  have hop : (Inst.call (UInt32.ofInt q)).encode.toNat / 2 ^ 26 = 0x25 := by omega
  simp only [decode?, hop, if_true, signedField_ofInt hlow hhigh h]
  rfl

lemma decode?_branchReg : decode? (Inst.branchReg x16).encode = some (.branchReg x16) := rfl

lemma decode?_callReg : decode? (Inst.callReg x16).encode = some (.callReg x16) := rfl

/-- The conditional branches over a jump. -/
lemma decode?_branchIf (c : Condition) (form : BranchForm) :
    decode? (Inst.branchIf c (UInt32.ofNat (1 + Isa.jumpBytes .aarch64 form / 4))).encode =
      some (.branchIf c (UInt32.ofNat (1 + Isa.jumpBytes .aarch64 form / 4))) := by
  cases c <;> cases form <;> decide +kernel

/-- The word of an instruction that sets a halfword of a register, above which `pattern` stands. -/
lemma toNat_halfword {pattern imm : UInt32} {m : Nat} {dst : Register}
    (hpattern : pattern.toNat = 2 ^ 21 * m) (himm : imm.toNat < 2 ^ 16) :
    (pattern ||| (imm <<< 5) ||| field dst 0).toNat = 2 ^ 21 * m + 2 ^ 5 * imm.toNat + dst.val := by
  have hdst := dst.isLt
  have hfield : (field dst 0).toNat = dst.val := by
    rw [field, UInt32.shiftLeft_zero, UInt32.toNat_ofNat']
    omega
  have hshift : (imm <<< 5).toNat = 2 ^ 5 * imm.toNat := by
    have h5 : (5 : UInt32).toNat % 32 = 5 := rfl
    rw [UInt32.toNat_shiftLeft, h5, Nat.shiftLeft_eq]
    omega
  have hlow : ((imm <<< 5) ||| field dst 0).toNat = 2 ^ 5 * imm.toNat + dst.val := by
    rw [toNat_or_of_lt hshift (by omega), hshift, hfield]
  rw [UInt32.or_assoc, toNat_or_of_lt hpattern (by omega), hlow, hpattern, Nat.add_assoc]

/-- The fields of such a word. -/
lemma halfword_fields {n op half imm : Nat} {dst : Register} (hhalf : half < 4)
    (himm : imm < 2 ^ 16) (hn : n = 2 ^ 21 * (4 * op + half) + 2 ^ 5 * imm + dst.val) :
    n / 2 ^ 23 = op ∧ n / 2 ^ 21 % 4 = half ∧ n / 2 ^ 5 % 2 ^ 16 = imm ∧ Fin.ofNat 32 n = dst := by
  have hdst := dst.isLt
  have hlow : n % 32 = dst.val := by omega
  exact ⟨by omega, by omega, by omega, Fin.ext hlow⟩

lemma toNat_encode_movz {half : Nat} {imm : UInt32} {dst : Register} (hhalf : half < 4)
    (himm : imm.toNat < 2 ^ 16) :
    (Inst.movz true half imm dst).encode.toNat =
      2 ^ 21 * (4 * 0x1a5 + half) + 2 ^ 5 * imm.toNat + dst.val := by
  have hpattern : (movzPattern true ||| (UInt32.ofNat half <<< 21)).toNat =
      2 ^ 21 * (4 * 0x1a5 + half) := by
    interval_cases half <;> rfl
  exact toNat_halfword hpattern himm

lemma toNat_encode_movk {half : Nat} {imm : UInt32} {dst : Register} (hhalf : half < 4)
    (himm : imm.toNat < 2 ^ 16) :
    (Inst.movk true half imm dst).encode.toNat =
      2 ^ 21 * (4 * 0x1e5 + half) + 2 ^ 5 * imm.toNat + dst.val := by
  have hpattern : (movkPattern true ||| (UInt32.ofNat half <<< 21)).toNat =
      2 ^ 21 * (4 * 0x1e5 + half) := by
    interval_cases half <;> rfl
  exact toNat_halfword hpattern himm

lemma decode?_movz {half : Nat} {imm : UInt32} {dst : Register} (hhalf : half < 4)
    (himm : imm.toNat < 2 ^ 16) :
    decode? (Inst.movz true half imm dst).encode = some (.movz true half imm dst) := by
  have hword := @toNat_encode_movz half imm dst hhalf himm
  obtain ⟨hop, hhalf', himm', hreg⟩ := halfword_fields hhalf himm hword
  simp only [decode?, hop, hhalf', himm', hreg]
  rw [if_neg (by omega), if_neg (by omega), if_neg (by omega), if_neg (by omega),
    if_neg (by omega), if_pos trivial, UInt32.ofNat_toNat]

lemma decode?_movk {half : Nat} {imm : UInt32} {dst : Register} (hhalf : half < 4)
    (himm : imm.toNat < 2 ^ 16) :
    decode? (Inst.movk true half imm dst).encode = some (.movk true half imm dst) := by
  have hword := @toNat_encode_movk half imm dst hhalf himm
  obtain ⟨hop, hhalf', himm', hreg⟩ := halfword_fields hhalf himm hword
  simp only [decode?, hop, hhalf', himm', hreg]
  rw [if_neg (by omega), if_neg (by omega), if_neg (by omega), if_neg (by omega),
    if_neg (by omega), if_neg (by omega), if_pos trivial, UInt32.ofNat_toNat]

/-- A distance in words that a direct branch or call can hold. -/
lemma words_eq_ok {delta : Int64} {w : UInt32} (h : words delta = .ok w) :
    ∃ q : Int, w = UInt32.ofInt q ∧ -2 ^ 25 ≤ q ∧ q < 2 ^ 25 ∧ delta.toInt = 4 * q := by
  simp only [words] at h
  split at h
  · rename_i hrange
    obtain ⟨hmod, hlow, hhigh⟩ := hrange
    simp only [Except.ok.injEq] at h
    refine ⟨delta.toInt.tdiv 4, h.symm, by omega, by omega, ?_⟩
    have hdiv := Int.mul_tdiv_add_tmod delta.toInt 4
    omega
  · simp at h

/-- What a direct branch adds to its address. -/
lemma ofInt_words {q : Int} (hlow : -2 ^ 25 ≤ q) (hhigh : q < 2 ^ 25) :
    (UInt32.ofInt q).toInt32.toInt = q := by
  rw [← Int32.toInt_toBitVec, UInt32.toBitVec_toInt32, BitVec.toInt_eq_toNat_bmod,
    UInt32.toNat_toBitVec, UInt32.ofInt, UInt32.toNat_ofNat', Int.bmod_def]
  omega

lemma control?_wordBytes (w : UInt32) (rest : List UInt8) :
    control? holds (fuel + 1) registers here (wordBytes w ++ rest) =
      match decode? w with
      | some (.movz _ half imm r) =>
        control? holds fuel (Function.update registers r (withHalfword 0 half imm)) (here + 4) rest
      | some (.movk _ half imm r) =>
        control? holds fuel (Function.update registers r (withHalfword (registers r) half imm))
          (here + 4) rest
      | some (.branchIf c words) =>
        if holds c then some (.jump (here + UInt64.ofInt (4 * words.toInt32.toInt)))
        else control? holds fuel registers (here + 4) rest
      | some (.branch words) => some (.jump (here + UInt64.ofInt (4 * words.toInt32.toInt)))
      | some (.call words) =>
        some (.call (here + UInt64.ofInt (4 * words.toInt32.toInt)) (here + 4))
      | some (.branchReg r) => some (.jump (registers r))
      | some (.callReg r) => some (.call (registers r) (here + 4))
      | _ => none := by
  have hword := ofLittleEndian_wordBytes w
  simp only [wordBytes, littleEndian, List.cons_append, List.nil_append] at hword ⊢
  simp only [control?, hword, UInt32.ofNat_toNat]
  cases decode? w with
  | none => rfl
  | some i => cases i <;> rfl

lemma control?_branch {delta : Int64} {w : UInt32} (h : words delta = .ok w) (rest : List UInt8) :
    control? holds (fuel + 1) registers here (encodeAll [.branch w] ++ rest) =
      some (.jump (here + UInt64.ofInt delta.toInt)) := by
  obtain ⟨q, rfl, hlow, hhigh, hdelta⟩ := words_eq_ok h
  simp only [encodeAll, List.flatMap_singleton]
  rw [control?_wordBytes, decode?_branch hlow hhigh]
  simp only [ofInt_words hlow hhigh, hdelta]

lemma control?_call {delta : Int64} {w : UInt32} (h : words delta = .ok w) (rest : List UInt8) :
    control? holds (fuel + 1) registers here (encodeAll [.call w] ++ rest) =
      some (.call (here + UInt64.ofInt delta.toInt) (here + 4)) := by
  obtain ⟨q, rfl, hlow, hhigh, hdelta⟩ := words_eq_ok h
  simp only [encodeAll, List.flatMap_singleton]
  rw [control?_wordBytes, decode?_call hlow hhigh]
  simp only [ofInt_words hlow hhigh, hdelta]

lemma toNat_halfword_eq {value : UInt64} {i : Nat} (hi : i < 4) :
    (halfword value i).toNat = value.toNat / 2 ^ (16 * i) % 2 ^ 16 := by
  have hshift : (UInt64.ofNat (16 * i)).toNat % 64 = 16 * i := by
    rw [UInt64.toNat_ofNat']
    omega
  have hmask (n : Nat) : n &&& (0xffff : UInt64).toNat = n % 2 ^ 16 :=
    Nat.and_two_pow_sub_one_eq_mod n 16
  rw [halfword, UInt64.toNat_toUInt32, UInt64.toNat_and, UInt64.toNat_shiftRight, hshift, hmask,
    Nat.shiftRight_eq_div_pow]
  omega

lemma toNat_halfword_lt {value : UInt64} {i : Nat} (hi : i < 4) :
    (halfword value i).toNat < 2 ^ 16 := by
  rw [toNat_halfword_eq hi]
  exact Nat.mod_lt _ (by decide)

lemma halfword_zero {i : Nat} (hi : i < 4) : halfword 0 i = 0 := by
  interval_cases i <;> rfl

/-- Setting a halfword above a number. -/
lemma toNat_withHalfword {value : UInt64} {half : Nat} {imm : UInt32} (hhalf : half < 4)
    (hvalue : value.toNat < 2 ^ (16 * half)) (himm : imm.toNat < 2 ^ 16) :
    (withHalfword value half imm).toNat = value.toNat + imm.toNat * 2 ^ (16 * half) := by
  rw [withHalfword, Nat.div_eq_of_lt hvalue, UInt64.toNat_ofNat']
  interval_cases half <;> omega

/-- Setting the four halfwords of a register one after the other. -/
lemma withHalfword_halfword (value : UInt64) :
    withHalfword (withHalfword (withHalfword (withHalfword 0 0 (halfword value 0)) 1
      (halfword value 1)) 2 (halfword value 2)) 3 (halfword value 3) = value := by
  have h₀ := @toNat_halfword_eq value 0 (by decide)
  have h₁ := @toNat_halfword_eq value 1 (by decide)
  have h₂ := @toNat_halfword_eq value 2 (by decide)
  have h₃ := @toNat_halfword_eq value 3 (by decide)
  have w₀ := @toNat_withHalfword 0 0 (halfword value 0) (by decide) (by decide) (by omega)
  have hzero : (0 : UInt64).toNat = 0 := rfl
  have w₁ := @toNat_withHalfword _ 1 (halfword value 1) (by decide) (by rw [w₀]; omega) (by omega)
  have w₂ := @toNat_withHalfword _ 2 (halfword value 2) (by decide) (by rw [w₁]; omega) (by omega)
  have w₃ := @toNat_withHalfword _ 3 (halfword value 3) (by decide) (by rw [w₂]; omega) (by omega)
  have hlt := value.toNat_lt
  apply UInt64.toNat_inj.mp
  rw [w₃, w₂, w₁, w₀, h₀, h₁, h₂, h₃]
  omega

lemma control?_movz {half : Nat} {imm : UInt32} (hhalf : half < 4) (himm : imm.toNat < 2 ^ 16)
    (rest : List UInt8) :
    control? holds (fuel + 1) registers here
        (wordBytes (Inst.movz true half imm x16).encode ++ rest) =
      control? holds fuel (Function.update registers x16 (withHalfword 0 half imm)) (here + 4)
        rest := by
  rw [control?_wordBytes, decode?_movz hhalf himm]

lemma control?_movk {half : Nat} {imm : UInt32} (hhalf : half < 4) (himm : imm.toNat < 2 ^ 16)
    (rest : List UInt8) (value : UInt64) :
    control? holds (fuel + 1) (Function.update registers x16 value) here
        (wordBytes (Inst.movk true half imm x16).encode ++ rest) =
      control? holds fuel (Function.update registers x16 (withHalfword value half imm)) (here + 4)
        rest := by
  rw [control?_wordBytes, decode?_movk hhalf himm]
  simp only [Function.update_self, Function.update_idem]

lemma control?_viaRegister (call : Bool) (target : UInt64) (rest : List UInt8) :
    control? holds (fuel + 5) registers here (encodeAll (viaRegister call target) ++ rest) =
      some (if call then .call target (here + 20) else .jump target) := by
  have hbytes : encodeAll (viaRegister call target) ++ rest =
      wordBytes (Inst.movz true 0 (halfword target 0) x16).encode ++
        (wordBytes (Inst.movk true 1 (halfword target 1) x16).encode ++
          (wordBytes (Inst.movk true 2 (halfword target 2) x16).encode ++
            (wordBytes (Inst.movk true 3 (halfword target 3) x16).encode ++
              (wordBytes (if call then Inst.callReg x16 else .branchReg x16).encode ++
                rest)))) := by
    simp [encodeAll, viaRegister, movAbsolute]
  have hback : here + 4 + 4 + 4 + 4 + 4 = here + 20 := by
    simp only [UInt64.add_assoc]
    rfl
  rw [hbytes, control?_movz (by decide) (toNat_halfword_lt (by decide)),
    control?_movk (by decide) (toNat_halfword_lt (by decide)),
    control?_movk (by decide) (toNat_halfword_lt (by decide)),
    control?_movk (by decide) (toNat_halfword_lt (by decide)), withHalfword_halfword,
    control?_wordBytes, ← hback]
  cases call with
  | false =>
    simp only [Bool.false_eq_true, if_false, decode?_branchReg, Function.update_self]
  | true => simp only [if_true, decode?_callReg, Function.update_self]

/-- The branch over a jump ends behind it. -/
lemma control?_skip (c : Condition) (form : BranchForm) (rest : List UInt8) :
    control? holds (fuel + 1) registers here (Isa.skip .aarch64 c form ++ rest) =
      if holds c.invert then some (.jump (here + 4 + UInt64.ofNat (Isa.jumpBytes .aarch64 form)))
      else control? holds fuel registers (here + 4) rest := by
  have hlength : UInt64.ofInt
      (4 * (UInt32.ofNat (1 + Isa.jumpBytes .aarch64 form / 4)).toInt32.toInt) =
        4 + UInt64.ofNat (Isa.jumpBytes .aarch64 form) := by
    cases form <;> decide
  simp only [Isa.skip, encodeAll, List.flatMap_singleton]
  rw [control?_wordBytes, decode?_branchIf]
  simp only [hlength, UInt64.add_assoc]

end A64

/-! ## Both instruction sets -/

namespace Isa

/-- Follows at most `fuel` instructions from the front of some bytes at the address `here`. -/
def control? (isa : Isa) (holds : Condition → Bool) (fuel : Nat) (registers : Nat → UInt64)
    (here : UInt64) (bytes : List UInt8) : Option Control :=
  match isa with
  | x64 => X64.control? holds fuel registers here bytes
  | aarch64 => A64.control? holds fuel registers here bytes

variable {isa : Isa} {base : UInt64} {form : BranchForm} {place : Nat} {bytes : List UInt8}
  {holds : Condition → Bool} {fuel : Nat} {registers : Nat → UInt64}

lemma address_add (m n : Nat) : address base (m + n) = address base m + UInt64.ofNat n := by
  rw [address, address, UInt64.ofNat_add, UInt64.add_assoc]

lemma add_sub_address (target : Nat) :
    address base place + (UInt64.ofNat target - UInt64.ofNat place) = address base target := by
  rw [address, address, UInt64.add_assoc, UInt64.add_comm (UInt64.ofNat place),
    UInt64.sub_add_cancel]

/-- A jump passes control to the place it is encoded for. -/
theorem control?_jump {target : Nat} (h : isa.jump base form place target = .ok bytes)
    (rest : List UInt8) :
    isa.control? holds (fuel + 5) registers (address base place) (bytes ++ rest) =
      some (.jump (address base target)) := by
  cases isa with
  | x64 =>
    cases form with
    | direct =>
      obtain ⟨d, hd, h⟩ := Except.bind_eq_ok_iff.mp h
      cases h
      rw [control?, X64.control?_jump hd]
    | indirect =>
      cases h
      rw [control?, X64.control?_viaRegister]
  | aarch64 =>
    cases form with
    | direct =>
      obtain ⟨w, hw, h⟩ := Except.bind_eq_ok_iff.mp h
      cases h
      rw [control?, A64.control?_branch hw, ofInt_toInt_ofInt, ofInt_sub, ofInt_natCast,
        ofInt_natCast, add_sub_address]
    | indirect =>
      cases h
      rw [control?, A64.control?_viaRegister]
      rfl

/-- A call passes control to the address it is encoded for, and returns behind itself. -/
theorem control?_call {target : UInt64} (h : isa.call base form place target = .ok bytes)
    (rest : List UInt8) :
    isa.control? holds (fuel + 5) registers (address base place) (bytes ++ rest) =
      some (.call target (address base (place + isa.jumpBytes form))) := by
  cases isa with
  | x64 =>
    cases form with
    | direct =>
      obtain ⟨d, hd, h⟩ := Except.bind_eq_ok_iff.mp h
      cases h
      rw [control?, X64.control?_call hd, address_add]
      rfl
    | indirect =>
      cases h
      rw [control?, X64.control?_callViaRegister, address_add]
      rfl
  | aarch64 =>
    cases form with
    | direct =>
      obtain ⟨w, hw, h⟩ := Except.bind_eq_ok_iff.mp h
      cases h
      have hlands : address base place + (target - address base place) = target := by
        rw [UInt64.add_comm, UInt64.sub_add_cancel]
      rw [control?, A64.control?_call hw, ← UInt64.toInt64_sub, ofInt_toInt_toInt64, hlands,
        address_add]
      rfl
    | indirect =>
      cases h
      rw [control?, A64.control?_viaRegister, address_add]
      rfl

/-- The conditional branch in front of a jump skips it if its condition holds. -/
theorem control?_skip (c : Condition) (rest : List UInt8) :
    isa.control? holds (fuel + 1) registers (address base place) (isa.skip c form ++ rest) =
      if holds c.invert then
        some (.jump (address base (place + isa.conditionBytes + isa.jumpBytes form)))
      else
        isa.control? holds fuel registers (address base (place + isa.conditionBytes)) rest := by
  simp only [address_add]
  cases isa with
  | x64 =>
    rw [control?, skip, X64.control?_jumpIf]
    cases form <;> rfl
  | aarch64 =>
    rw [control?, A64.control?_skip]
    rfl

lemma length_jump {target : Nat} (h : isa.jump base form place target = .ok bytes) :
    bytes.length = isa.jumpBytes form := by
  cases isa with
  | x64 =>
    cases form with
    | direct =>
      obtain ⟨d, hd, h⟩ := Except.bind_eq_ok_iff.mp h
      cases h
      rfl
    | indirect =>
      cases h
      rfl
  | aarch64 =>
    cases form with
    | direct =>
      obtain ⟨w, hw, h⟩ := Except.bind_eq_ok_iff.mp h
      cases h
      rfl
    | indirect =>
      cases h
      rfl

lemma length_openJump : (isa.openJump form).length = isa.jumpBytes form := by
  cases isa <;> cases form <;> rfl

lemma length_skip (c : Condition) : (isa.skip c form).length = isa.conditionBytes := by
  cases isa <;> rfl

end Isa

end TreeCode
