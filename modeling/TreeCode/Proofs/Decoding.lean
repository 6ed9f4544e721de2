import Mathlib.Tactic.Common
import Mathlib.Tactic.IntervalCases
import TreeCode.Proofs.Control

/-!
# Instructions of x86-64 are read back

Decoding is the inverse of encoding: whatever bytes follow, the instruction at the front is the one
that was encoded, and takes up as many bytes as it was given (`decode?_encode`).  The only
instructions without an encoding are the lane-wise operations that do not exist.
-/

namespace TreeCode.X64

variable {l : Lead} {reg rm base r : Register} {offset : Int32} {opcode : UInt8}
  {bytes rest : List UInt8} {m : Option UInt8} {wide forced : Bool}

/-! ## Parts of an encoding -/

namespace Decoder

variable {α β : Type}

@[simp] lemma pure_apply (a : α) (bytes : List UInt8) :
    (pure a : Decoder α) bytes = some (a, bytes) := rfl

@[simp] lemma bind_apply (x : Decoder α) (f : α → Decoder β) (bytes : List UInt8) :
    (x >>= f) bytes = (x bytes).bind fun r => f r.1 r.2 := rfl

@[simp] lemma map_apply (f : α → β) (x : Decoder α) (bytes : List UInt8) :
    (f <$> x) bytes = (x bytes).map fun r => (f r.1, r.2) := by
  change (x bytes).bind _ = _
  cases x bytes <;> rfl

end Decoder

lemma low_lt (r : Register) : low r < 8 := Nat.mod_lt _ (by decide)

lemma high_lt (r : Register) : high r < 2 := by
  have hr := r.isLt
  unfold high
  omega

lemma ofParts_low_high (r : Register) : Register.ofParts (low r) (high r) = r := by
  revert r
  decide

/-- The fields of the byte that names operands. -/
lemma modRM_fields {mode reg rm : Nat} (hmode : mode < 4) (hreg : reg < 8) (hrm : rm < 8) :
    (modRM mode reg rm).toNat / 64 = mode ∧ (modRM mode reg rm).toNat / 8 % 8 = reg ∧
      (modRM mode reg rm).toNat % 8 = rm := by
  rw [modRM, UInt8.toNat_ofNat']
  omega

/-- What may stand in front of an encoding. -/
def IsMandatory (m : Option UInt8) : Prop :=
  m = none ∨ m = some 0x66 ∨ m = some 0xf2 ∨ m = some 0xf3

/-- An opcode that is taken for nothing else. -/
structure Leads (m : Option UInt8) (opcode : UInt8) : Prop where
  mandatory : IsMandatory m
  not_rex : opcode.toNat / 16 ≠ 4
  not_mandatory : m = none → opcode ≠ 0x66 ∧ opcode ≠ 0xf2 ∧ opcode ≠ 0xf3

lemma lead_plain (h : Leads m opcode) (rest : List UInt8) :
    lead (m.toList ++ opcode :: rest) = some ((⟨m, false, 0, 0⟩, opcode), rest) := by
  have hrex := h.not_rex
  rcases h.mandatory with rfl | rfl | rfl | rfl
  · obtain ⟨h66, hf2, hf3⟩ := h.not_mandatory rfl
    simp [lead, Decoder.byte, h66, hf2, hf3, hrex]
  all_goals simp [lead, Decoder.byte, hrex]

lemma lead_rex {n : Nat} (hm : IsMandatory m) (hn : n < 16) (opcode : UInt8) (rest : List UInt8) :
    lead (m.toList ++ UInt8.ofNat (0x40 + n) :: opcode :: rest) =
      some ((⟨m, n / 8 % 2 == 1, n / 4 % 2, n % 2⟩, opcode), rest) := by
  rcases hm with rfl | rfl | rfl | rfl <;> interval_cases n <;> rfl

/-- The REX byte is left out only where it says nothing. -/
lemma rex_cases (wide forced : Bool) (reg rm : Register) :
    rex wide forced reg rm = [] ∧ wide = false ∧ high reg = 0 ∧ high rm = 0 ∨
      ∃ n < 16, rex wide forced reg rm = [UInt8.ofNat (0x40 + n)] ∧ (n / 8 % 2 == 1) = wide ∧
        n / 4 % 2 = high reg ∧ n % 2 = high rm := by
  have hreg := high_lt reg
  have hrm := high_lt rm
  by_cases hnone : (((if wide then 8 else 0) + high reg * 4 + high rm = 0 : Bool) && !forced) = true
  · left
    have hzero := of_decide_eq_true (Bool.and_eq_true_iff.mp hnone).1
    refine ⟨if_pos hnone, ?_⟩
    cases wide
    · exact ⟨rfl, by omega, by omega⟩
    · simp only [if_true] at hzero
      omega
  · right
    refine ⟨(if wide then 8 else 0) + high reg * 4 + high rm, ?_, if_neg hnone, ?_⟩
    · split <;> omega
    · generalize high reg = x at hreg
      generalize high rm = y at hrm
      cases wide <;> interval_cases x <;> interval_cases y <;> decide

/-- The mandatory byte, the REX byte and the opcode are read back. -/
lemma lead_eq (h : Leads m opcode) (rest : List UInt8) :
    lead (m.toList ++ (rex wide forced reg rm ++ opcode :: rest)) =
      some ((⟨m, wide, high reg, high rm⟩, opcode), rest) := by
  rcases rex_cases wide forced reg rm with ⟨hrex, hwide, hreg, hrm⟩ |
    ⟨n, hn, hrex, hwide, hreg, hrm⟩
  · rw [hrex, hwide, hreg, hrm]
    exact lead_plain h rest
  · rw [hrex, List.singleton_append, lead_rex h.mandatory hn, hwide, hreg, hrm]

lemma byte_cons (b : UInt8) (rest : List UInt8) : Decoder.byte (b :: rest) = some (b, rest) := rfl

/-- Two registers are read back. -/
lemma operands_registers (hrm : l.rm = high rm) (rest : List UInt8) :
    operands l (registers reg rm ++ rest) = some ((low reg, .register rm), rest) := by
  obtain ⟨hmode, hreg, hlow⟩ :=
    modRM_fields (show 3 < 4 by decide) (low_lt reg) (low_lt rm)
  simp only [operands, registers, List.singleton_append, Decoder.bind_apply, byte_cons,
    Option.bind_some, hmode, if_true, hreg, hlow, hrm, ofParts_low_high, Decoder.pure_apply]

/-- An offset that fits a byte is read back from it. -/
lemma signed8_eq (h : -128 ≤ offset.toInt ∧ offset.toInt ≤ 127) (rest : List UInt8) :
    ∃ d, Decoder.signed8 (offset.toUInt32.toUInt8 :: rest) = some (d, rest) ∧
      d.toInt32 = offset := by
  refine ⟨offset.toUInt32.toUInt8.toInt8, rfl, Int32.toInt_inj.mp ?_⟩
  rw [← Int32.toInt_toBitVec, BitVec.toInt_eq_toNat_bmod, Int32.toNat_toBitVec] at h
  rw [Int8.toInt_toInt32, ← Int8.toInt_toBitVec, UInt8.toBitVec_toInt8,
    BitVec.toInt_eq_toNat_bmod, UInt8.toNat_toBitVec, UInt32.toNat_toUInt8,
    ← Int32.toInt_toBitVec, BitVec.toInt_eq_toNat_bmod, Int32.toNat_toBitVec]
  simp only [Int.bmod_def] at h ⊢
  omega

/-- The byte that the stack pointer needs as a base. -/
def sib (base : Register) : List UInt8 := if low base = 4 then [0x24] else []

lemma memory_eq (reg base : Register) (offset : Int32) : memory reg base offset =
    if offset.toInt = 0 && low base ≠ 5 then modRM 0 (low reg) (low base) :: (sib base ++ [])
    else if -128 ≤ offset.toInt && offset.toInt ≤ 127 then
      modRM 1 (low reg) (low base) :: (sib base ++ [offset.toUInt32.toUInt8])
    else modRM 2 (low reg) (low base) :: (sib base ++ wordBytes offset.toUInt32) := by
  rw [List.append_nil]
  rfl

/-- Reads the displacement that a mode calls for, behind the other bytes of a place in memory. -/
def displaced (mode reg : Nat) (base : Register) : Decoder (Nat × Place) :=
  match mode with
  | 0 => do
    Decoder.check (low base != 5)
    pure (reg, .memory base 0)
  | 1 => do pure (reg, .memory base (← Decoder.signed8).toInt32)
  | _ => do pure (reg, .memory base (← Decoder.signed32))

lemma operands_place {mode : Nat} (hmode : mode < 3) (hrm : l.rm = high base)
    (bytes : List UInt8) :
    operands l (modRM mode (low reg) (low base) :: (sib base ++ bytes)) =
      displaced mode (low reg) base bytes := by
  obtain ⟨hmode', hreg, hlow⟩ :=
    modRM_fields (show mode < 4 by omega) (low_lt reg) (low_lt base)
  simp only [operands, Decoder.bind_apply, byte_cons, Option.bind_some, hmode', hreg, hlow, hrm,
    ofParts_low_high]
  rw [if_neg (by omega), sib]
  by_cases hstack : low base = 4
  · rw [if_pos hstack, if_pos hstack]
    interval_cases mode <;> rfl
  · rw [if_neg hstack, if_neg hstack]
    interval_cases mode <;> rfl

/-- A register and a place in memory are read back. -/
lemma operands_memory (hrm : l.rm = high base) (rest : List UInt8) :
    operands l (memory reg base offset ++ rest) = some ((low reg, .memory base offset), rest) := by
  rw [memory_eq]
  split
  · rename_i hzero
    obtain ⟨hoffset, hbase⟩ : offset.toInt = 0 ∧ low base ≠ 5 := by simpa using hzero
    obtain rfl : offset = 0 := Int32.toInt_inj.mp hoffset
    rw [List.cons_append, List.append_assoc, operands_place (by decide) hrm, displaced]
    simp [Decoder.check, hbase]
  · split
    · rename_i hbyte
      obtain ⟨d, hd, hoffset⟩ := signed8_eq (by simpa using hbyte) rest
      rw [List.cons_append, List.append_assoc, operands_place (by decide) hrm, displaced]
      simp [hd, hoffset]
    · rw [List.cons_append, List.append_assoc, operands_place (by decide) hrm]
      simp [displaced, signed32_wordBytes]

lemma registerPair_eq (hreg : l.reg = high reg) (hrm : l.rm = high rm) (rest : List UInt8) :
    registerPair l (registers reg rm ++ rest) = some ((reg, rm), rest) := by
  simp [registerPair, operands_registers hrm, hreg, ofParts_low_high]

lemma registerAndMemory_eq (hreg : l.reg = high reg) (hrm : l.rm = high base)
    (rest : List UInt8) :
    registerAndMemory l (memory reg base offset ++ rest) = some ((reg, base, offset), rest) := by
  simp [registerAndMemory, operands_memory hrm, hreg, ofParts_low_high]

/-- A digit that belongs to the opcode, and a register. -/
lemma digitAndRegister_eq {digit : Nat} (hdigit : digit < 8) (hrm : l.rm = high rm)
    (rest : List UInt8) :
    digitAndRegister l (modRM 3 digit (low rm) :: rest) = some ((digit, rm), rest) := by
  obtain ⟨hmode, hreg, hlow⟩ := @modRM_fields 3 digit (low rm) (by decide) hdigit (low_lt rm)
  simp [digitAndRegister, operands, byte_cons, hmode, hreg, hlow, hrm, ofParts_low_high]

/-! ## Instructions -/

/-- An instruction is read back if it is from what stands behind its opcode. -/
lemma instruction_eq {i : Inst} (m : Option UInt8) (wide forced : Bool) (reg rm : Register)
    (opcode : UInt8) (bytes : List UInt8) {encoding rest : List UInt8} (hlead : Leads m opcode)
    (hencoding : encoding = m.toList ++ (rex wide forced reg rm ++ opcode :: bytes))
    (h : opcodeInst ⟨m, wide, high reg, high rm⟩ opcode bytes = some (i, rest)) :
    instruction encoding = some (i, rest) := by
  show (lead encoding).bind _ = _
  rw [hencoding, lead_eq hlead]
  exact h

lemma leads_none (hrex : opcode.toNat / 16 ≠ 4)
    (hmandatory : opcode ≠ 0x66 ∧ opcode ≠ 0xf2 ∧ opcode ≠ 0xf3) : Leads none opcode :=
  ⟨.inl rfl, hrex, fun _ => hmandatory⟩

lemma leads_extended (hm : IsMandatory m) : Leads m 0x0f := ⟨hm, by decide, fun _ => by decide⟩

lemma leads_f3 : Leads (some 0xf3) 0x0f := leads_extended (.inr (.inr (.inr rfl)))

lemma leads_66 : Leads (some 0x66) 0x0f := leads_extended (.inr (.inl rfl))

section Memory

variable {access : Access} (hreg : l.reg = high reg) (hrm : l.rm = high base) (rest : List UInt8)

include hreg hrm

lemma loadOf_eq : loadOf access l (memory reg base offset ++ rest) =
    some (.load access reg base offset, rest) := by
  simp [loadOf, registerAndMemory_eq hreg hrm]

lemma storeOf_eq : storeOf access l (memory reg base offset ++ rest) =
    some (.store access reg base offset, rest) := by
  simp [storeOf, registerAndMemory_eq hreg hrm]

lemma moveInst_memory (haccess : l.mandatory = none ∧ (if l.wide then .i64 else .i32) = access ∨
      l.mandatory = some 0x66 ∧ Access.i16 = access) :
    moveInst l (memory reg base offset ++ rest) = some (.store access reg base offset, rest) := by
  rcases haccess with ⟨hmandatory, rfl⟩ | ⟨hmandatory, rfl⟩ <;>
    simp [moveInst, operands_memory hrm, hreg, ofParts_low_high, hmandatory, Decoder.ofOption]

end Memory

/-- The opcodes of loads are told apart. -/
lemma exists_loadOpcode (access : Access) : ∃ m o os, loadOpcode access = (m.toList, o :: os) ∧
    Leads m o ∧ ∀ reg base offset rest,
      opcodeInst ⟨m, access == .i64, high reg, high base⟩ o
          (os ++ (memory reg base offset ++ rest)) =
        some (.load access reg base offset, rest) := by
  have hplain : Leads none 0x8b := leads_none (by decide) (by decide)
  have hnone : Leads none 0x0f := leads_none (by decide) (by decide)
  cases access with
  | i8 => exact ⟨none, 0x0f, [0xbe], rfl, hnone, fun _ _ _ => loadOf_eq rfl rfl⟩
  | i16 => exact ⟨none, 0x0f, [0xbf], rfl, hnone, fun _ _ _ => loadOf_eq rfl rfl⟩
  | i32 => exact ⟨none, 0x8b, [], rfl, hplain, fun _ _ _ => loadOf_eq rfl rfl⟩
  | i64 => exact ⟨none, 0x8b, [], rfl, hplain, fun _ _ _ => loadOf_eq rfl rfl⟩
  | f32 => exact ⟨some 0xf3, 0x0f, [0x10], rfl, leads_f3, fun _ _ _ => loadOf_eq rfl rfl⟩
  | f64 => exact ⟨some 0xf3, 0x0f, [0x7e], rfl, leads_f3, fun _ _ _ => loadOf_eq rfl rfl⟩
  | v128 => exact ⟨some 0xf3, 0x0f, [0x6f], rfl, leads_f3, fun _ _ _ => loadOf_eq rfl rfl⟩

/-- The opcodes of stores are told apart. -/
lemma exists_storeOpcode (access : Access) : ∃ m o os, storeOpcode access = (m.toList, o :: os) ∧
    Leads m o ∧ ∀ reg base offset rest,
      opcodeInst ⟨m, access == .i64, high reg, high base⟩ o
          (os ++ (memory reg base offset ++ rest)) =
        some (.store access reg base offset, rest) := by
  have hbyte : Leads none 0x88 := leads_none (by decide) (by decide)
  have hhalf : Leads (some 0x66) 0x89 := ⟨.inr (.inl rfl), by decide, nofun⟩
  have hplain : Leads none 0x89 := leads_none (by decide) (by decide)
  cases access with
  | i8 => exact ⟨none, 0x88, [], rfl, hbyte, fun _ _ _ => storeOf_eq rfl rfl⟩
  | i16 =>
    exact ⟨some 0x66, 0x89, [], rfl, hhalf,
      fun _ _ _ rest => moveInst_memory rfl rfl rest (.inr ⟨rfl, rfl⟩)⟩
  | i32 =>
    exact ⟨none, 0x89, [], rfl, hplain,
      fun _ _ _ rest => moveInst_memory rfl rfl rest (.inl ⟨rfl, rfl⟩)⟩
  | i64 =>
    exact ⟨none, 0x89, [], rfl, hplain,
      fun _ _ _ rest => moveInst_memory rfl rfl rest (.inl ⟨rfl, rfl⟩)⟩
  | f32 => exact ⟨some 0xf3, 0x0f, [0x11], rfl, leads_f3, fun _ _ _ => storeOf_eq rfl rfl⟩
  | f64 => exact ⟨some 0x66, 0x0f, [0xd6], rfl, leads_66, fun _ _ _ => storeOf_eq rfl rfl⟩
  | v128 => exact ⟨some 0xf3, 0x0f, [0x7f], rfl, leads_f3, fun _ _ _ => storeOf_eq rfl rfl⟩

lemma instruction_load (access : Access) (dst base : Register) (offset : Int32)
    (rest : List UInt8) :
    instruction ((Inst.load access dst base offset).encode ++ rest) =
      some (.load access dst base offset, rest) := by
  obtain ⟨m, o, os, hopcode, hleads, hread⟩ := exists_loadOpcode access
  refine instruction_eq m (access == .i64) false dst base o _ hleads ?_ (hread _ _ _ _)
  simp [Inst.encode, hopcode]

lemma instruction_store (access : Access) (src base : Register) (offset : Int32)
    (rest : List UInt8) :
    instruction ((Inst.store access src base offset).encode ++ rest) =
      some (.store access src base offset, rest) := by
  obtain ⟨m, o, os, hopcode, hleads, hread⟩ := exists_storeOpcode access
  refine instruction_eq m (access == .i64) (byteNeedsRex access src) src base o _ hleads ?_
    (hread _ _ _ _)
  simp [Inst.encode, hopcode]

/-! ### Registers -/

section Registers

variable {α : Type} (hreg : l.reg = high reg) (hrm : l.rm = high rm) (rest : List UInt8)

include hreg hrm in
lemma bind_registerPair {f : (Register × Register) × List UInt8 → Option (α × List UInt8)} {a : α}
    (h : f ((reg, rm), rest) = some (a, rest)) :
    Option.bind (registerPair l (registers reg rm ++ rest)) f = some (a, rest) := by
  simp [registerPair_eq hreg hrm, h]

include hrm in
lemma bind_digitAndRegister (digit : Nat) (hdigit : digit < 8)
    {f : (Nat × Register) × List UInt8 → Option (α × List UInt8)} {a : α}
    (h : f ((digit, rm), rest) = some (a, rest)) :
    Option.bind (digitAndRegister l (modRM 3 digit (low rm) :: rest)) f = some (a, rest) := by
  simp [digitAndRegister_eq hdigit hrm, h]

include hreg hrm in
lemma moveInst_registers (hmandatory : l.mandatory = none) :
    moveInst l (registers reg rm ++ rest) = some (.movReg l.wide rm reg, rest) := by
  simp [moveInst, operands_registers hrm, hreg, hmandatory, ofParts_low_high, Decoder.check]

end Registers

lemma instruction_movReg (wide : Bool) (dst src : Register) (rest : List UInt8) :
    instruction ((Inst.movReg wide dst src).encode ++ rest) = some (.movReg wide dst src, rest) :=
  instruction_eq none wide false src dst 0x89 (registers src dst ++ rest)
    (leads_none (by decide) (by decide)) (by simp [Inst.encode])
    (moveInst_registers rfl rfl rest rfl)

lemma instruction_movToVector (wide : Bool) (dst src : Register) (rest : List UInt8) :
    instruction ((Inst.movToVector wide dst src).encode ++ rest) =
      some (.movToVector wide dst src, rest) :=
  instruction_eq (some 0x66) wide false dst src 0x0f (0x6e :: (registers dst src ++ rest))
    leads_66 (by simp [Inst.encode]) (bind_registerPair rfl rfl rest rfl)

lemma instruction_movaps (dst src : Register) (rest : List UInt8) :
    instruction ((Inst.movaps dst src).encode ++ rest) = some (.movaps dst src, rest) :=
  instruction_eq none false false dst src 0x0f (0x28 :: (registers dst src ++ rest))
    (leads_none (by decide) (by decide)) (by simp [Inst.encode])
    (bind_registerPair rfl rfl rest rfl)

lemma instruction_imul (wide : Bool) (dst rhs : Register) (rest : List UInt8) :
    instruction ((Inst.imul wide dst rhs).encode ++ rest) = some (.imul wide dst rhs, rest) :=
  instruction_eq none wide false dst rhs 0x0f (0xaf :: (registers dst rhs ++ rest))
    (leads_none (by decide) (by decide)) (by simp [Inst.encode])
    (bind_registerPair rfl rfl rest rfl)

lemma instruction_neg (wide : Bool) (dst : Register) (rest : List UInt8) :
    instruction ((Inst.neg wide dst).encode ++ rest) = some (.neg wide dst, rest) :=
  instruction_eq none wide false rax dst 0xf7 (modRM 3 3 (low dst) :: rest)
    (leads_none (by decide) (by decide)) (by simp [Inst.encode])
    (bind_digitAndRegister rfl rest _ (by decide) rfl)

lemma instruction_jumpReg (r : Register) (rest : List UInt8) :
    instruction ((Inst.jumpReg r).encode ++ rest) = some (.jumpReg r, rest) :=
  instruction_eq none false false rax r 0xff (modRM 3 4 (low r) :: rest)
    (leads_none (by decide) (by decide)) (by simp [Inst.encode])
    (bind_digitAndRegister rfl rest _ (by decide) rfl)

lemma instruction_callReg (r : Register) (rest : List UInt8) :
    instruction ((Inst.callReg r).encode ++ rest) = some (.callReg r, rest) :=
  instruction_eq none false false rax r 0xff (modRM 3 2 (low r) :: rest)
    (leads_none (by decide) (by decide)) (by simp [Inst.encode])
    (bind_digitAndRegister rfl rest _ (by decide) rfl)

lemma instruction_shift (s : Shift) (wide : Bool) (dst : Register) (rest : List UInt8) :
    instruction ((Inst.shift s wide dst).encode ++ rest) = some (.shift s wide dst, rest) := by
  refine instruction_eq none wide false rax dst 0xd3 (modRM 3 s.digit (low dst) :: rest)
    (leads_none (by decide) (by decide)) (by simp [Inst.encode]) ?_
  cases s <;> exact bind_digitAndRegister rfl rest _ (by decide) rfl

/-! ### Floating point and lanes -/

lemma leads_float (double : Bool) : Leads (some (if double then 0xf2 else 0xf3)) 0x0f := by
  cases double
  · exact leads_f3
  · exact leads_extended (.inr (.inr (.inl rfl)))

lemma instruction_scalar (op : FloatOp) (double : Bool) (dst rhs : Register)
    (rest : List UInt8) :
    instruction ((Inst.scalar op double dst rhs).encode ++ rest) =
      some (.scalar op double dst rhs, rest) := by
  refine instruction_eq (some (if double then 0xf2 else 0xf3)) false false dst rhs 0x0f
    (floatOpcode op :: (registers dst rhs ++ rest)) (leads_float double) (by simp [Inst.encode]) ?_
  cases double <;> cases op <;> exact bind_registerPair rfl rfl rest rfl

lemma instruction_sqrt (double : Bool) (dst src : Register) (rest : List UInt8) :
    instruction ((Inst.sqrt double dst src).encode ++ rest) =
      some (.sqrt double dst src, rest) := by
  refine instruction_eq (some (if double then 0xf2 else 0xf3)) false false dst src 0x0f
    (0x51 :: (registers dst src ++ rest)) (leads_float double) (by simp [Inst.encode]) ?_
  cases double <;> exact bind_registerPair rfl rfl rest rfl

section Packed

variable {op : VectorOp} {lane : Lane} {os : List UInt8}

lemma mandatory_of_packedOpcode? (h : packedOpcode? op lane = some (m.toList, os)) :
    m = none ∨ m = some 0x66 := by
  cases op <;> cases lane <;> cases m <;> simp_all [packedOpcode?]

/-- No two lane-wise operations have one opcode. -/
lemma packedOf?_eq (h : packedOpcode? op lane = some (m.toList, os)) :
    packedOf? m os = some (op, lane) := by
  rcases mandatory_of_packedOpcode? h with rfl | rfl <;>
    cases op <;> cases lane <;> cases h <;> rfl

/-- Nor has another instruction. -/
lemma extendedInst_packed {reg rm : Nat} (h : packedOpcode? op lane = some (m.toList, 0x0f :: os))
    (rest : List UInt8) : extendedInst ⟨m, false, reg, rm⟩ (os ++ rest) =
      packedInst ⟨m, false, reg, rm⟩ (0x0f :: os) rest := by
  rcases mandatory_of_packedOpcode? h with rfl | rfl <;>
    cases op <;> cases lane <;> cases h <;> rfl

lemma packedInst_eq (h : packedOpcode? op lane = some (l.mandatory.toList, os))
    (hreg : l.reg = high reg) (hrm : l.rm = high rm) (rest : List UInt8) :
    packedInst l os (registers reg rm ++ rest) = some (.packed op lane reg rm, rest) := by
  simp [packedInst, packedOf?_eq h, Decoder.ofOption, registerPair_eq hreg hrm]

lemma exists_packedOpcode (h : (packedOpcode? op lane).isSome) :
    ∃ m os, packedOpcode? op lane = some (Option.toList m, 0x0f :: os) ∧ Leads m 0x0f := by
  have hnone : Leads none 0x0f := leads_none (by decide) (by decide)
  cases op <;> cases lane <;> first
    | exact absurd h Bool.false_ne_true
    | exact ⟨none, _, rfl, hnone⟩
    | exact ⟨some 0x66, _, rfl, leads_66⟩

lemma instruction_packed (h : (packedOpcode? op lane).isSome) (dst rhs : Register)
    (rest : List UInt8) :
    instruction ((Inst.packed op lane dst rhs).encode ++ rest) =
      some (.packed op lane dst rhs, rest) := by
  obtain ⟨m, os, hopcode, hleads⟩ := exists_packedOpcode h
  exact instruction_eq m false false dst rhs 0x0f (os ++ (registers dst rhs ++ rest)) hleads
    (by simp [Inst.encode, hopcode])
    ((extendedInst_packed hopcode _).trans (packedInst_eq hopcode rfl rfl rest))

end Packed

/-! ### Opcodes that hold a register -/

/-- The opcodes that are not told apart one by one. -/
lemma opcodeInst_compact (hmandatory : l.mandatory = none)
    (hrange : opcode ≠ 0x0f ∧ opcode.toNat < 0x81 ∨ opcode.toNat / 8 = 23) :
    opcodeInst l opcode = compactInst l opcode := by
  have hcheck : Decoder.check l.mandatory.isNone = pure () := by rw [hmandatory]; rfl
  unfold opcodeInst
  split
  · simp at hrange
  · simp at hrange
  · rw [hcheck, pure_bind]
    split <;> first | rfl | simp at hrange

/-- An instruction whose opcode has five bits of its own and the low bits of a register. -/
lemma instruction_compact {i : Inst} (wide : Bool) {op : Nat} (hop : op = 10 ∨ op = 11 ∨ op = 23)
    (r : Register) (bytes : List UInt8) {encoding : List UInt8}
    (hencoding : encoding = rex wide false rax r ++ UInt8.ofNat (op * 8 + low r) :: bytes)
    (h : ∀ o : UInt8, o.toNat / 8 = op → Register.ofParts o.toNat (high r) = r →
      compactInst ⟨none, wide, 0, high r⟩ o bytes = some (i, rest)) :
    instruction encoding = some (i, rest) := by
  have hlow := low_lt r
  have hopcode : (UInt8.ofNat (op * 8 + low r)).toNat = op * 8 + low r := by
    rw [UInt8.toNat_ofNat', Nat.mod_eq_of_lt (by omega)]
  have hr : Register.ofParts (op * 8 + low r) (high r) = r := by
    refine (Fin.ext ?_).trans (ofParts_low_high r)
    simp only [Register.ofParts]
    omega
  generalize UInt8.ofNat (op * 8 + low r) = o at hopcode hencoding
  have hdiffers (n : UInt8) (hn : n.toNat / 8 ≠ op) : o ≠ n := by
    rintro rfl
    omega
  have hrange : o ≠ 0x0f ∧ o.toNat < 0x81 ∨ o.toNat / 8 = 23 := by
    rcases hop with rfl | rfl | rfl
    · exact .inl ⟨hdiffers _ (by decide), by omega⟩
    · exact .inl ⟨hdiffers _ (by decide), by omega⟩
    · exact .inr (by omega)
  have hleads : Leads none o := by
    refine leads_none (by omega) ⟨hdiffers _ ?_, hdiffers _ ?_, hdiffers _ ?_⟩ <;>
      rcases hop with rfl | rfl | rfl <;> decide
  refine instruction_eq none wide false rax r o bytes hleads hencoding ?_
  rw [opcodeInst_compact rfl hrange]
  exact h o (by omega) (by rw [hopcode, hr])

lemma instruction_push (r : Register) (rest : List UInt8) :
    instruction ((Inst.push r).encode ++ rest) = some (.push r, rest) :=
  instruction_compact false (.inl rfl) r rest (by simp [Inst.encode])
    fun o hop hr => by simp [compactInst, hop, hr]

lemma instruction_pop (r : Register) (rest : List UInt8) :
    instruction ((Inst.pop r).encode ++ rest) = some (.pop r, rest) :=
  instruction_compact false (.inr (.inl rfl)) r rest (by simp [Inst.encode])
    fun o hop hr => by simp [compactInst, hop, hr]

lemma instruction_movImm32 (r : Register) (value : UInt32) (rest : List UInt8) :
    instruction ((Inst.movImm32 r value).encode ++ rest) = some (.movImm32 r value, rest) :=
  instruction_compact false (.inr (.inr rfl)) r (wordBytes value ++ rest) (by simp [Inst.encode])
    fun o hop hr => by
      simp [compactInst, hop, hr, number_wordBytes]

lemma instruction_movImm64 (r : Register) (value : UInt64) (rest : List UInt8) :
    instruction ((Inst.movImm64 r value).encode ++ rest) = some (.movImm64 r value, rest) :=
  instruction_compact true (.inr (.inr rfl)) r (doubleWordBytes value ++ rest)
    (by simp [Inst.encode]) fun o hop hr => by
      simp [compactInst, hop, hr, number_doubleWordBytes]

lemma instruction_alu (op : Alu) (wide : Bool) (dst rhs : Register) (rest : List UInt8) :
    instruction ((Inst.alu op wide dst rhs).encode ++ rest) =
      some (.alu op wide dst rhs, rest) := by
  have hleads : Leads none op.opcode := by
    cases op <;> exact leads_none (by decide) (by decide)
  refine instruction_eq none wide false rhs dst op.opcode (registers rhs dst ++ rest) hleads
    (by simp [Inst.encode]) ?_
  cases op <;> exact bind_registerPair rfl rfl rest rfl

/-! ### The stack and control -/

lemma instruction_subStack (bytes : UInt32) (rest : List UInt8) :
    instruction ((Inst.subStack bytes).encode ++ rest) = some (.subStack bytes, rest) := by
  rw [Inst.encode]
  split
  · rename_i hbyte
    have hread : bytes.toUInt8.toUInt32 = bytes := by
      have hbyte' : bytes.toNat ≤ 127 := hbyte
      apply UInt32.toNat_inj.mp
      rw [UInt8.toNat_toUInt32, UInt32.toNat_toUInt8]
      omega
    show some (Inst.subStack bytes.toUInt8.toUInt32, rest) = _
    rw [hread]
  · have hrun (tail : List UInt8) : instruction (0x48 :: 0x81 :: 0xec :: tail) =
        ((Decoder.number 4 tail).bind fun p => some (UInt32.ofNat p.1, p.2)).bind fun p =>
          some (.subStack p.1, p.2) := rfl
    rw [List.append_assoc, List.cons_append, List.cons_append, List.cons_append, List.nil_append,
      hrun, number_wordBytes]
    simp

/-! ## Reading back -/

/-- Whether an instruction has bytes. -/
def Inst.Encodable : Inst → Prop
  | packed op lane _ _ => (packedOpcode? op lane).isSome
  | _ => True

/-- An instruction is read back from the front of whatever bytes it stands in. -/
theorem instruction_encode {i : Inst} (h : i.Encodable) (rest : List UInt8) :
    instruction (i.encode ++ rest) = some (i, rest) := by
  cases i with
  | push r => exact instruction_push r rest
  | pop r => exact instruction_pop r rest
  | ret => rfl
  | movReg wide dst src => exact instruction_movReg wide dst src rest
  | subStack bytes => exact instruction_subStack bytes rest
  | load access dst base offset => exact instruction_load access dst base offset rest
  | store access src base offset => exact instruction_store access src base offset rest
  | movImm64 dst value => exact instruction_movImm64 dst value rest
  | movImm32 dst value => exact instruction_movImm32 dst value rest
  | movToVector wide dst src => exact instruction_movToVector wide dst src rest
  | movaps dst src => exact instruction_movaps dst src rest
  | alu op wide dst rhs => exact instruction_alu op wide dst rhs rest
  | imul wide dst rhs => exact instruction_imul wide dst rhs rest
  | shift op wide dst => exact instruction_shift op wide dst rest
  | neg wide dst => exact instruction_neg wide dst rest
  | scalar op double dst rhs => exact instruction_scalar op double dst rhs rest
  | sqrt double dst src => exact instruction_sqrt double dst src rest
  | packed op lane dst rhs => exact instruction_packed h dst rhs rest
  | jump distance => exact instruction_jump distance rest
  | call distance => exact instruction_call distance rest
  | jumpReg r => exact instruction_jumpReg r rest
  | callReg r => exact instruction_callReg r rest
  | jumpIf c distance => exact instruction_jumpIf c distance rest

lemma Inst.encode_ne_nil {i : Inst} (h : i.Encodable) : i.encode ≠ [] := by
  intro hnil
  have hread := instruction_encode h []
  rw [hnil] at hread
  exact nomatch hread

/-- **Decoding is the inverse of encoding.** -/
theorem decode?_encode {i : Inst} (h : i.Encodable) (rest : List UInt8) :
    decode? (i.encode ++ rest) = some (i, i.encode.length) :=
  decode?_of_instruction (instruction_encode h rest)

end TreeCode.X64
