import Mathlib.Tactic.Common
import Mathlib.Tactic.IntervalCases
import TreeCode.Proofs.Addressing
import TreeCode.Proofs.Decoding
import TreeCode.Proofs.Transfers

/-!
# Jumps and calls among bytes

`Isa.forms?` takes bytes apart into instructions, from the first one to the last, and lists the
forms of the jumps and calls among them.  The bytes of instructions that control goes on behind hold
none (`Isa.reads_emission`), and those of a transfer hold exactly one, of the form that was chosen
for it (`Assembler.Encodes.reads`).  Conditional branches have no form: they only lead around a
jump.
-/

namespace TreeCode

/-! ## Forms of instructions -/

/-- The form of a jump or call. -/
def X64.Inst.form? : X64.Inst → Option BranchForm
  | jump _ | call _ => some .direct
  | jumpReg r | callReg r => if r = r11 then some .indirect else none
  | _ => none

/-- The form of a jump or call. -/
def A64.Inst.form? : A64.Inst → Option BranchForm
  | branch _ | call _ => some .direct
  | branchReg r | callReg r => if r = x16 then some .indirect else none
  | _ => none

/-- The form of the jump or call that a word is. -/
def A64.form? (word : UInt32) : Option BranchForm := (decode? word).bind Inst.form?

namespace Isa

/-- The form of the instruction at the front of some bytes, if it is a jump or call, and the bytes
behind it. -/
def next? : Isa → List UInt8 → Option (Option BranchForm × List UInt8)
  | x64, bytes => (X64.instruction bytes).map fun (i, rest) => (i.form?, rest)
  | aarch64, b₀ :: b₁ :: b₂ :: b₃ :: rest =>
    some (A64.form? (UInt32.ofNat (ofLittleEndian [b₀, b₁, b₂, b₃])), rest)
  | aarch64, _ => none

/-- The forms of the jumps and calls in some bytes that are made of instructions. -/
def forms? (isa : Isa) (bytes : List UInt8) : Option (List BranchForm) :=
  match bytes with
  | [] => some []
  | b :: bs =>
    match isa.next? (b :: bs) with
    | none => none
    | some (form, rest) =>
      if rest.length < (b :: bs).length then (isa.forms? rest).map (form.toList ++ ·) else none
  termination_by bytes.length
  decreasing_by assumption

/-- Bytes that are instructions with jumps and calls of these forms, whatever follows. -/
def Reads (isa : Isa) (c : List UInt8) (forms : List BranchForm) : Prop :=
  ∀ rest, isa.forms? (c ++ rest) = (isa.forms? rest).map (forms ++ ·)

variable {isa : Isa} {c d : List UInt8} {forms forms' : List BranchForm} {form : Option BranchForm}

lemma reads_nil (isa : Isa) : isa.Reads [] [] := fun rest => by simp

lemma Reads.append (h : isa.Reads c forms) (h' : isa.Reads d forms') :
    isa.Reads (c ++ d) (forms ++ forms') := fun rest => by
  rw [List.append_assoc, h, h', Option.map_map]
  exact congrFun (congrArg _ (funext fun fs => (List.append_assoc _ _ fs).symm)) _

/-- All bytes of the code are read. -/
lemma Reads.forms?_eq (h : isa.Reads c forms) : isa.forms? c = some forms := by
  have hall := h []
  rwa [List.append_nil, forms?, Option.map_some, List.append_nil] at hall

/-- One instruction. -/
lemma reads_of_next? (hc : c ≠ [])
    (h : ∀ rest, isa.next? (c ++ rest) = some (form, rest)) : isa.Reads c form.toList := by
  intro rest
  obtain ⟨b, bs, rfl⟩ := List.exists_cons_of_ne_nil hc
  have hlt : rest.length < (b :: (bs ++ rest)).length := by
    rw [List.length_cons, List.length_append]
    omega
  rw [List.cons_append, forms?, ← List.cons_append, h]
  exact if_pos hlt

end Isa

lemma forall_mem_of_ok {α : Type} {P : α → Prop} {a : α} {as : List α}
    (h : (Except.ok [a] : Except EncodingFault (List α)) = .ok as) (ha : P a) : ∀ b ∈ as, P b := by
  cases h
  exact List.forall_mem_singleton.mpr ha

/-! ## x86-64 -/

namespace X64

variable {i : Inst} {insts : List Inst} {instr : Instr}

lemma reads_encode (h : i.Encodable) : Isa.x64.Reads i.encode i.form?.toList :=
  Isa.reads_of_next? (Inst.encode_ne_nil h) fun rest => by
    rw [Isa.next?, instruction_encode h, Option.map_some]

lemma reads_encodeAll (h : ∀ i ∈ insts, i.Encodable) :
    Isa.x64.Reads (encodeAll insts) (insts.filterMap Inst.form?) := by
  induction insts with
  | nil => exact Isa.reads_nil _
  | cons i insts ih =>
    rw [List.forall_mem_cons] at h
    have hall := (reads_encode h.1).append (ih h.2)
    cases hform : i.form? <;> simpa [hform, encodeAll] using hall

/-- An instruction with bytes behind which control goes on. -/
def Inst.Plain (i : Inst) : Prop := i.Encodable ∧ i.form? = none

lemma reads_plain (h : ∀ i ∈ insts, i.Plain) : Isa.x64.Reads (encodeAll insts) [] := by
  have hread := reads_encodeAll fun i hi => (h i hi).1
  rwa [List.filterMap_eq_nil_iff.mpr fun i hi => (h i hi).2] at hread

lemma plain_frameLink : ∀ i ∈ frameLink, i.Plain := by
  simp [frameLink, Inst.Plain, Inst.Encodable, Inst.form?]

lemma plain_frameRoom {bytes : UInt32} (h : frameRoom bytes = .ok insts) :
    ∀ i ∈ insts, i.Plain := by
  unfold frameRoom at h
  split at h
  · cases h
    nofun
  · split at h
    · cases h
      simp [Inst.Plain, Inst.Encodable, Inst.form?]
    · cases h

lemma plain_intInsts (op : IntOp) (wide : Bool) (dst rhs : Register) :
    ∀ i ∈ intInsts op wide dst rhs, i.Plain := by
  cases op <;> simp [intInsts, Inst.Plain, Inst.Encodable, Inst.form?]

lemma plain_resultMove (l : Located) (toResult : Bool) : ∀ i ∈ resultMove l toResult, i.Plain := by
  obtain ⟨bank, number⟩ := l
  unfold resultMove
  split
  · nofun
  · cases toResult <;> cases bank <;> simp [Inst.Plain, Inst.Encodable, Inst.form?]

/-- The instructions for an abstract instruction pass control on to the next one. -/
lemma plain_select (h : select instr = .ok insts) : ∀ i ∈ insts, i.Plain := by
  cases instr with
  | prologue frame =>
    obtain ⟨room, hroom, h⟩ := Except.bind_eq_ok_iff.mp h
    cases h
    exact List.forall_mem_append.mpr ⟨plain_frameLink, plain_frameRoom hroom⟩
  | epilogue =>
    cases h
    simp [epilogue, Inst.Plain, Inst.Encodable, Inst.form?]
  | spillArg arg access offset | loadArg arg access offset =>
    obtain ⟨l, -, h⟩ := Except.bind_eq_ok_iff.mp h
    obtain ⟨r, -, h⟩ := Except.bind_eq_ok_iff.mp h
    exact forall_mem_of_ok h ⟨trivial, rfl⟩
  | load access r base offset | store access r base offset =>
    obtain ⟨base, -, h⟩ := Except.bind_eq_ok_iff.mp h
    obtain ⟨l, -, h⟩ := Except.bind_eq_ok_iff.mp h
    obtain ⟨r, -, h⟩ := Except.bind_eq_ok_iff.mp h
    exact forall_mem_of_ok h ⟨trivial, rfl⟩
  | movImm dst value wide =>
    obtain ⟨dst, -, h⟩ := Except.bind_eq_ok_iff.mp h
    cases wide <;> exact forall_mem_of_ok h ⟨trivial, rfl⟩
  | fmovImm dst bits double =>
    obtain ⟨dst, -, h⟩ := Except.bind_eq_ok_iff.mp h
    cases h
    cases double <;> simp [Inst.Plain, Inst.Encodable, Inst.form?]
  | intOp op wide dst rhs =>
    obtain ⟨dst, -, h⟩ := Except.bind_eq_ok_iff.mp h
    obtain ⟨rhs, -, h⟩ := Except.bind_eq_ok_iff.mp h
    cases h
    exact plain_intInsts op wide dst rhs
  | intNeg wide dst =>
    obtain ⟨dst, -, h⟩ := Except.bind_eq_ok_iff.mp h
    exact forall_mem_of_ok h ⟨trivial, rfl⟩
  | floatOp op double dst rhs =>
    obtain ⟨dst, -, h⟩ := Except.bind_eq_ok_iff.mp h
    obtain ⟨rhs, -, h⟩ := Except.bind_eq_ok_iff.mp h
    exact forall_mem_of_ok h ⟨trivial, rfl⟩
  | floatSqrt double dst =>
    obtain ⟨dst, -, h⟩ := Except.bind_eq_ok_iff.mp h
    exact forall_mem_of_ok h ⟨trivial, rfl⟩
  | vectorOp op lane dst rhs =>
    obtain ⟨dst, -, h⟩ := Except.bind_eq_ok_iff.mp h
    obtain ⟨rhs, -, h⟩ := Except.bind_eq_ok_iff.mp h
    split at h
    · rename_i hopcode
      exact forall_mem_of_ok h ⟨Option.isSome_iff_exists.mpr ⟨_, hopcode⟩, rfl⟩
    · cases h
  | compare wide lhs rhs =>
    obtain ⟨lhs, -, h⟩ := Except.bind_eq_ok_iff.mp h
    obtain ⟨rhs, -, h⟩ := Except.bind_eq_ok_iff.mp h
    exact forall_mem_of_ok h ⟨trivial, rfl⟩
  | moveResult r | takeResult r =>
    obtain ⟨l, -, h⟩ := Except.bind_eq_ok_iff.mp h
    cases h
    exact plain_resultMove _ _

lemma reads_viaRegister (call : Bool) (target : UInt64) :
    Isa.x64.Reads (encodeAll (viaRegister call target)) [.indirect] := by
  have hforms : (viaRegister call target).filterMap Inst.form? = [.indirect] := by
    cases call <;> rfl
  rw [← hforms]
  refine reads_encodeAll ?_
  cases call <;> simp [viaRegister, Inst.Encodable]

end X64

/-! ## AArch64 -/

namespace A64

variable {i : Inst} {insts : List Inst} {instr : Instr} {word pattern f : UInt32}

/-- The first nine bits of a word that is neither a jump nor a call. -/
structure Opens (word : UInt32) : Prop where
  not_branch : word.toNat / 2 ^ 23 / 8 ≠ 0x05
  not_call : word.toNat / 2 ^ 23 / 8 ≠ 0x25
  not_register : word.toNat / 2 ^ 23 ≠ 0x1ac

lemma Opens.form?_eq (h : Opens word) : form? word = none := by
  obtain ⟨hbranch, hcall, hregister⟩ := h
  unfold form? decode?
  dsimp only
  rw [if_neg (by omega), if_neg (by omega)]
  split
  · cases Condition.all.find? fun c => conditionCode c == UInt32.ofNat (word.toNat % 2 ^ 4) <;> rfl
  · rw [if_neg (by omega), if_neg (by omega)]
    split
    · rfl
    · split <;> rfl

/-- Fields behind the first nine bits do not change them. -/
lemma Opens.or (h : Opens pattern) (hf : f.toNat < 2 ^ 23) : Opens (pattern ||| f) := by
  have hopens : (pattern ||| f).toNat / 2 ^ 23 = pattern.toNat / 2 ^ 23 := by
    rw [UInt32.toNat_or, ← Nat.shiftRight_eq_div_pow, ← Nat.shiftRight_eq_div_pow,
      Nat.shiftRight_or_distrib, Nat.shiftRight_eq_div_pow f.toNat, Nat.div_eq_of_lt hf,
      Nat.or_zero]
  exact ⟨hopens ▸ h.not_branch, hopens ▸ h.not_call, hopens ▸ h.not_register⟩

lemma field_lt (r : Register) : (field r 0).toNat < 2 ^ 23 ∧ (field r 5).toNat < 2 ^ 23 ∧
    (field r 16).toNat < 2 ^ 23 := by
  revert r
  decide

lemma shift_lt {imm k : UInt32} {bits : Nat} (h : imm.toNat < 2 ^ bits)
    (hk : k.toNat % 32 + bits ≤ 23) : (imm <<< k).toNat < 2 ^ 23 := by
  rw [UInt32.toNat_shiftLeft, Nat.shiftLeft_eq]
  refine Nat.lt_of_le_of_lt (Nat.mod_le _ _) ?_
  calc imm.toNat * 2 ^ (k.toNat % 32) < 2 ^ bits * 2 ^ (k.toNat % 32) :=
        Nat.mul_lt_mul_of_pos_right h (Nat.two_pow_pos _)
    _ = 2 ^ (k.toNat % 32 + bits) := by rw [Nat.add_comm, Nat.pow_add]
    _ ≤ 2 ^ 23 := Nat.pow_le_pow_right (by decide) hk

/-- An instruction behind which control goes on, and that fits its word: it exists, and its
immediates are no longer than their fields. -/
def Inst.Plain : Inst → Prop
  | addImm _ _ imm | subImm _ _ imm | load _ _ _ imm | store _ _ _ imm => imm.toNat < 2 ^ 12
  | movz _ half imm _ | movk _ half imm _ => half < 4 ∧ imm.toNat < 2 ^ 16
  | packed op lane _ _ _ => (packedPattern? op lane).isSome
  | branch _ | call _ | branchIf _ _ | branchReg _ | callReg _ => False
  | _ => True

/-- The patterns of instructions are no branches. -/
lemma opens_data (op : DataOp) (wide : Bool) : Opens (atWidth wide op.pattern) := by
  cases op <;> cases wide <;> exact ⟨by decide, by decide, by decide⟩

lemma opens_load (access : Access) : Opens (loadPattern access) := by
  cases access <;> exact ⟨by decide, by decide, by decide⟩

lemma opens_store (access : Access) : Opens (storePattern access) := by
  cases access <;> exact ⟨by decide, by decide, by decide⟩

lemma opens_scalar (op : FloatOp) (double : Bool) :
    Opens (floatPattern op ||| doubleBit double) := by
  cases op <;> cases double <;> exact ⟨by decide, by decide, by decide⟩

lemma opens_packed {op : VectorOp} {lane : Lane} (h : (packedPattern? op lane).isSome) :
    Opens ((packedPattern? op lane).getD 0) := by
  cases op <;> cases lane <;> first
    | exact absurd h Bool.false_ne_true
    | exact ⟨by decide, by decide, by decide⟩

lemma opens_half {wide : Bool} {half : Nat} (hhalf : half < 4) :
    Opens (movzPattern wide ||| (UInt32.ofNat half <<< 21)) ∧
      Opens (movkPattern wide ||| (UInt32.ofNat half <<< 21)) := by
  interval_cases half <;> cases wide <;>
    exact ⟨⟨by decide, by decide, by decide⟩, by decide, by decide, by decide⟩

lemma Inst.Plain.form?_encode (h : i.Plain) : A64.form? i.encode = none := by
  have himm {imm : UInt32} (h : imm.toNat < 2 ^ 12) : (imm <<< 10).toNat < 2 ^ 23 :=
    shift_lt h (by decide)
  have hhalf {imm : UInt32} (h : imm.toNat < 2 ^ 16) : (imm <<< 5).toNat < 2 ^ 23 :=
    shift_lt h (by decide)
  have h0 (r : Register) := (field_lt r).1
  have h5 (r : Register) := (field_lt r).2.1
  have h16 (r : Register) := (field_lt r).2.2
  have hconst {w : UInt32} (h : w.toNat / 2 ^ 23 / 8 ≠ 0x05 ∧ w.toNat / 2 ^ 23 / 8 ≠ 0x25 ∧
    w.toNat / 2 ^ 23 ≠ 0x1ac) : Opens w := ⟨h.1, h.2.1, h.2.2⟩
  cases i with
  | pushLink | popLink | ret => rfl
  | addImm dst src imm | subImm dst src imm =>
    exact ((((hconst (by decide)).or (himm h)).or (h5 _)).or (h0 _)).form?_eq
  | movz wide half imm dst =>
    exact (((opens_half h.1).1.or (hhalf h.2)).or (h0 _)).form?_eq
  | movk wide half imm dst =>
    exact (((opens_half h.1).2.or (hhalf h.2)).or (h0 _)).form?_eq
  | data op wide dst lhs rhs =>
    exact ((((opens_data op wide).or (h16 _)).or (h5 _)).or (h0 _)).form?_eq
  | load access dst base imm =>
    exact ((((opens_load access).or (himm h)).or (h5 _)).or (h0 _)).form?_eq
  | store access src base imm =>
    exact ((((opens_store access).or (himm h)).or (h5 _)).or (h0 _)).form?_eq
  | movToVector double dst src =>
    cases double <;> exact (((hconst (by decide)).or (h5 _)).or (h0 _)).form?_eq
  | movVector dst src =>
    exact ((((hconst (by decide)).or (h16 _)).or (h5 _)).or (h0 _)).form?_eq
  | scalar op double dst lhs rhs =>
    exact ((((opens_scalar op double).or (h16 _)).or (h5 _)).or (h0 _)).form?_eq
  | sqrt double dst src =>
    cases double <;> exact (((hconst (by decide)).or (h5 _)).or (h0 _)).form?_eq
  | packed op lane dst lhs rhs =>
    exact ((((opens_packed h).or (h16 _)).or (h5 _)).or (h0 _)).form?_eq
  | branch | call | branchIf | branchReg | callReg => exact h.elim

lemma reads_wordBytes (w : UInt32) : Isa.aarch64.Reads (wordBytes w) (form? w).toList := by
  refine Isa.reads_of_next? (by simp [wordBytes, littleEndian]) fun rest => ?_
  have hword : UInt32.ofNat (ofLittleEndian (wordBytes w)) = w := by
    rw [ofLittleEndian_wordBytes, UInt32.ofNat_toNat]
  simp only [wordBytes, littleEndian] at hword
  simp only [wordBytes, littleEndian, List.cons_append, List.nil_append, Isa.next?, hword]

lemma reads_encodeAll (insts : List Inst) :
    Isa.aarch64.Reads (encodeAll insts) (insts.filterMap fun i => form? i.encode) := by
  induction insts with
  | nil => exact Isa.reads_nil _
  | cons i insts ih =>
    have hall := (reads_wordBytes i.encode).append ih
    cases hform : form? i.encode <;> simpa [hform, encodeAll] using hall

lemma reads_plain (h : ∀ i ∈ insts, i.Plain) : Isa.aarch64.Reads (encodeAll insts) [] := by
  have hread := reads_encodeAll insts
  rwa [List.filterMap_eq_nil_iff.mpr fun i hi => (h i hi).form?_encode] at hread

lemma plain_movWide (dst : Register) (value : UInt64) (wide : Bool) :
    ∀ i ∈ movWide dst value wide, i.Plain := by
  have hcount : (if wide then 4 else 2) ≤ 4 := by cases wide <;> decide
  have hlt {half : Nat} (h : half < if wide then 4 else 2) :
      half < 4 ∧ (halfword value half).toNat < 2 ^ 16 :=
    ⟨by omega, toNat_halfword_lt (by omega)⟩
  refine List.forall_mem_cons.mpr ⟨hlt ?_, ?_⟩
  · cases hfind : (List.range (if wide then 4 else 2)).find? fun i => halfword value i != 0 with
    | none => cases wide <;> decide
    | some i => exact List.mem_range.mp (List.mem_of_find?_eq_some hfind)
  · intro i hi
    obtain ⟨half, hhalf, rfl⟩ := List.mem_map.mp hi
    exact hlt (List.mem_range.mp (List.mem_filter.mp hhalf).1)

lemma plain_memory {access : Access} {isLoad : Bool} {reg : Register} {base : Base}
    {offset : Int32} (h : memory access isLoad reg base offset = .ok insts) :
    ∀ i ∈ insts, i.Plain := by
  have hmove {b : Register} {imm : UInt32} (himm : imm.toNat < 2 ^ 12) :
      (move isLoad access reg b imm).Plain := by
    cases isLoad <;> exact himm
  cases base with
  | frame =>
    unfold memory at h
    dsimp only at h
    split at h
    · rename_i hscaled
      cases h
      exact List.forall_mem_singleton.mpr (hmove (eq_of_scaled? hscaled).1)
    · cases h
  | reg index =>
    obtain ⟨b, -, h⟩ := Except.bind_eq_ok_iff.mp h
    split at h
    · rename_i hscaled
      cases h
      exact List.forall_mem_singleton.mpr (hmove (eq_of_scaled? hscaled).1)
    · cases h
      refine List.forall_mem_append.mpr ⟨plain_movWide _ _ _, ?_⟩
      exact List.forall_mem_cons.mpr ⟨trivial, List.forall_mem_singleton.mpr (hmove (by decide))⟩

lemma plain_prologue {frame : UInt32} (h : ¬ maxFrame < frame) :
    ∀ i ∈ prologue frame, i.Plain := by
  have hframe : frame.toNat < 2 ^ 12 := Nat.lt_succ_of_le (UInt32.not_lt.mp h)
  unfold prologue
  split
  · simpa [Inst.Plain] using hframe
  · simp [Inst.Plain]

lemma plain_selectUnlimited (hinstr : ∀ frame, instr ≠ .prologue frame)
    (h : selectUnlimited instr = .ok insts) : ∀ i ∈ insts, i.Plain := by
  cases instr with
  | prologue frame => exact (hinstr frame rfl).elim
  | epilogue =>
    cases h
    simp [epilogue, Inst.Plain]
  | spillArg | loadArg | load | store =>
    obtain ⟨r, -, h⟩ := Except.bind_eq_ok_iff.mp h
    exact plain_memory h
  | movImm dst value wide =>
    obtain ⟨dst, -, h⟩ := Except.bind_eq_ok_iff.mp h
    cases h
    exact plain_movWide _ _ _
  | fmovImm dst bits double =>
    obtain ⟨dst, -, h⟩ := Except.bind_eq_ok_iff.mp h
    cases h
    exact List.forall_mem_append.mpr
      ⟨plain_movWide _ _ _, List.forall_mem_singleton.mpr trivial⟩
  | intOp op wide dst rhs =>
    obtain ⟨dst, -, h⟩ := Except.bind_eq_ok_iff.mp h
    obtain ⟨rhs, -, h⟩ := Except.bind_eq_ok_iff.mp h
    split at h
    · exact forall_mem_of_ok h trivial
    · cases h
  | intNeg wide dst =>
    obtain ⟨dst, -, h⟩ := Except.bind_eq_ok_iff.mp h
    exact forall_mem_of_ok h trivial
  | floatOp op double dst rhs =>
    obtain ⟨dst, -, h⟩ := Except.bind_eq_ok_iff.mp h
    obtain ⟨rhs, -, h⟩ := Except.bind_eq_ok_iff.mp h
    exact forall_mem_of_ok h trivial
  | floatSqrt double dst =>
    obtain ⟨dst, -, h⟩ := Except.bind_eq_ok_iff.mp h
    exact forall_mem_of_ok h trivial
  | vectorOp op lane dst rhs =>
    obtain ⟨dst, -, h⟩ := Except.bind_eq_ok_iff.mp h
    obtain ⟨rhs, -, h⟩ := Except.bind_eq_ok_iff.mp h
    split at h
    · rename_i hpattern
      exact forall_mem_of_ok h (Option.isSome_iff_exists.mpr ⟨_, hpattern⟩)
    · cases h
  | compare wide lhs rhs =>
    obtain ⟨lhs, -, h⟩ := Except.bind_eq_ok_iff.mp h
    obtain ⟨rhs, -, h⟩ := Except.bind_eq_ok_iff.mp h
    exact forall_mem_of_ok h trivial
  | moveResult r | takeResult r =>
    cases r <;>
      · obtain ⟨r, -, h⟩ := Except.bind_eq_ok_iff.mp h
        exact forall_mem_of_ok h trivial

/-- The instructions for an abstract instruction pass control on to the next one. -/
lemma plain_select (h : select instr = .ok insts) : ∀ i ∈ insts, i.Plain := by
  unfold select at h
  split at h
  · split at h
    · cases h
    · rename_i hframe
      cases h
      exact plain_prologue hframe
  · rename_i hinstr
    exact plain_selectUnlimited hinstr (Except.mapError_eq_ok_iff.mp h)

/-- An instruction that is a jump or call. -/
lemma reads_form {form : BranchForm} (h : form? i.encode = some form) :
    Isa.aarch64.Reads (encodeAll [i]) [form] := by
  have hread := reads_encodeAll [i]
  rwa [List.filterMap_cons, h] at hread

lemma form?_branch (w : UInt32) : form? (Inst.branch w).encode = some .direct := by
  have h := toNat_encode_branch w
  have hop : (Inst.branch w).encode.toNat / 2 ^ 26 = 0x05 := by omega
  simp only [form?, decode?, hop, if_true]
  rfl

lemma form?_call (w : UInt32) : form? (Inst.call w).encode = some .direct := by
  have h := toNat_encode_call w
  have hop : (Inst.call w).encode.toNat / 2 ^ 26 = 0x25 := by omega
  simp only [form?, decode?, hop]
  rfl

lemma reads_viaRegister (call : Bool) (target : UInt64) :
    Isa.aarch64.Reads (encodeAll (viaRegister call target)) [.indirect] := by
  have hmoves : ∀ i ∈ movAbsolute x16 target, i.Plain := by
    have hhalf (i : Nat) (hi : i < 4) := @toNat_halfword_lt target i hi
    simpa [movAbsolute, Inst.Plain] using
      ⟨hhalf 0 (by decide), hhalf 1 (by decide), hhalf 2 (by decide), hhalf 3 (by decide)⟩
  rw [viaRegister, encodeAll_append]
  refine (reads_plain hmoves).append ?_
  cases call <;> exact reads_form rfl

end A64

/-! ## Steps -/

namespace Isa

variable {isa : Isa} {i : Instr}

/-- Code without jumps and calls. -/
theorem reads_emission (h : (isa.emission i).failure = none) :
    isa.Reads (isa.emission i).bytes [] := by
  unfold emission at h ⊢
  split
  · split
    · rename_i hroom
      exact X64.reads_plain
        (List.forall_mem_append.mpr ⟨X64.plain_frameLink, X64.plain_frameRoom hroom⟩)
    · rename_i hroom
      simp [hroom] at h
  · split
    · rename_i hselect
      exact X64.reads_plain (X64.plain_select hselect)
    · exact reads_nil _
  · split
    · rename_i hselect
      exact A64.reads_plain (A64.plain_select hselect)
    · exact reads_nil _

variable {base : UInt64} {form : BranchForm} {place : Nat} {bytes : List UInt8}

lemma reads_jump {target : Nat} (h : isa.jump base form place target = .ok bytes) :
    isa.Reads bytes [form] := by
  cases isa <;> cases form
  case x64.direct =>
    obtain ⟨d, -, h⟩ := Except.bind_eq_ok_iff.mp h
    cases h
    exact X64.reads_encodeAll (List.forall_mem_singleton.mpr trivial)
  case x64.indirect =>
    cases h
    exact X64.reads_viaRegister _ _
  case aarch64.direct =>
    obtain ⟨w, -, h⟩ := Except.bind_eq_ok_iff.mp h
    cases h
    exact A64.reads_form (A64.form?_branch w)
  case aarch64.indirect =>
    cases h
    exact A64.reads_viaRegister _ _

lemma reads_call {target : UInt64} (h : isa.call base form place target = .ok bytes) :
    isa.Reads bytes [form] := by
  cases isa <;> cases form
  case x64.direct =>
    obtain ⟨d, -, h⟩ := Except.bind_eq_ok_iff.mp h
    cases h
    exact X64.reads_encodeAll (List.forall_mem_singleton.mpr trivial)
  case x64.indirect =>
    cases h
    exact X64.reads_viaRegister _ _
  case aarch64.direct =>
    obtain ⟨w, -, h⟩ := Except.bind_eq_ok_iff.mp h
    cases h
    exact A64.reads_form (A64.form?_call w)
  case aarch64.indirect =>
    cases h
    exact A64.reads_viaRegister _ _

/-- The branch around a jump is no jump itself. -/
lemma reads_skip (c : Condition) (form : BranchForm) : isa.Reads (isa.skip c form) [] := by
  cases isa with
  | x64 => exact X64.reads_plain (List.forall_mem_singleton.mpr ⟨trivial, rfl⟩)
  | aarch64 =>
    have hread := A64.reads_encodeAll
      [.branchIf c.invert (UInt32.ofNat (1 + jumpBytes .aarch64 form / 4))]
    rwa [List.filterMap_cons, A64.form?, A64.decode?_branchIf] at hread

end Isa

/-- The bytes of a transfer hold a jump or call of the form that was chosen for it. -/
theorem Assembler.Encodes.reads {a : Assembler} {place : Nat} {form : BranchForm}
    {c : List UInt8} {t : Transfer} (h : a.Encodes place form c t) : a.isa.Reads c [form] := by
  cases t with
  | jump label =>
    obtain ⟨target, -, hjump⟩ := h
    exact Isa.reads_jump hjump
  | branchIf cond label =>
    obtain ⟨target, rest, -, hjump, rfl⟩ := h
    exact (Isa.reads_skip cond form).append (Isa.reads_jump hjump)
  | call target => exact Isa.reads_call h

end TreeCode
