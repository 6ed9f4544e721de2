import Mathlib.Tactic.Common
import TreeCode.Assembler
import TreeCode.Proofs.Assignment
import TreeCode.Proofs.Layout
import TreeCode.Proofs.Values

/-!
# Which instructions can be encoded

An instruction has an encoding if its registers are in the pools, of the banks that it works on, and
if its offset into the frame is one that loads and stores can hold (`Isa.Admits`).  On x86-64 any
offset is; on AArch64 it has to be a multiple of what is accessed, and small.
-/

namespace TreeCode

/-! ## Registers -/

namespace X64

lemma exists_general {index : Nat} (h : index < Isa.x64.pool .general) :
    ∃ r, general index = .ok r := by
  rw [← length_generalPool] at h
  exact ⟨generalPool[index], by rw [general, List.getElem?_eq_getElem h]⟩

lemma exists_vector {index : Nat} (h : index < Isa.x64.pool .vector) :
    ∃ r, vector index = .ok r := ⟨_, dif_pos h⟩

lemma exists_locate {r : Reg} (h : r.index < Isa.x64.pool r.bank) :
    ∃ l, locate r = .ok l ∧ l.bank = r.bank := by
  cases r with
  | general index =>
    obtain ⟨number, hnumber⟩ : ∃ r, general index = .ok r := exists_general h
    exact ⟨⟨.general, number⟩, by rw [locate, hnumber]; rfl, rfl⟩
  | vector index =>
    obtain ⟨number, hnumber⟩ : ∃ r, vector index = .ok r := exists_vector h
    exact ⟨⟨.vector, number⟩, by rw [locate, hnumber]; rfl, rfl⟩

lemma exists_locateArgument {a : Argument} (h : a.index < Isa.x64.convention.count a.bank) :
    ∃ l, locateArgument a = .ok l ∧ l.bank = a.bank := by
  obtain ⟨bank, index⟩ := a
  cases bank with
  | general =>
    have hlt : index < generalArguments.length := by
      rw [length_generalArguments]
      exact h
    exact ⟨⟨.general, generalArguments[index]⟩,
      by simp only [locateArgument, List.getElem?_eq_getElem hlt], rfl⟩
  | vector => exact ⟨_, dif_pos h, rfl⟩

lemma checkBank_eq {access : Access} {l : Located} (h : access.bank = l.bank) :
    checkBank access l = .ok l.number := if_pos h

end X64

namespace A64

lemma exists_general {index : Nat} (h : index < Isa.aarch64.pool .general) :
    ∃ r, general index = .ok r := ⟨_, dif_pos h⟩

lemma exists_vector {index : Nat} (h : index < Isa.aarch64.pool .vector) :
    ∃ r, vector index = .ok r := ⟨_, dif_pos h⟩

lemma exists_accessRegister {access : Access} {r : Reg} (hbank : access.bank = r.bank)
    (h : r.index < Isa.aarch64.pool r.bank) : ∃ n, accessRegister access r = .ok n := by
  cases r with
  | general index =>
    rw [accessRegister.eq_def, if_neg (not_not.mpr hbank)]
    exact exists_general h
  | vector index =>
    rw [accessRegister.eq_def, if_neg (not_not.mpr hbank)]
    exact exists_vector h

lemma exists_argumentRegister {access : Access} {a : Argument} (hbank : access.bank = a.bank)
    (h : a.index < Isa.aarch64.convention.count a.bank) :
    ∃ n, argumentRegister access a = .ok n := by
  have hlt : a.index < argumentRegisters := by
    cases hb : a.bank <;> rw [hb] at h <;> exact h
  rw [argumentRegister, dif_pos hlt, if_pos hbank]
  exact ⟨_, rfl⟩

/-- A load or store has an encoding if it counts from a pool register, or its offset can be held. -/
lemma exists_memory {access : Access} {base : Base} {offset : Int32} (isLoad : Bool)
    (reg : Register) (hbase : ∀ index, base = .reg index → index < Isa.aarch64.pool .general)
    (hframe : base = .frame → (scaled? access offset).isSome) :
    ∃ insts, memory access isLoad reg base offset = .ok insts := by
  cases base with
  | reg index =>
    obtain ⟨r, hr⟩ := exists_general (hbase index rfl)
    simp only [memory, hr, Except.ok_bind]
    cases scaled? access offset <;> exact ⟨_, rfl⟩
  | frame =>
    obtain ⟨imm, himm⟩ := Option.isSome_iff_exists.mp (hframe rfl)
    simp only [memory, himm]
    exact ⟨_, rfl⟩

/-- Offsets into a small frame can be held. -/
lemma isSome_scaled? {access : Access} {n : Nat} (hdvd : access.bytes ∣ n) (h : n < 4096) :
    (scaled? access (frameOffset n)).isSome := by
  have hint : (frameOffset n).toInt = n := toInt_frameOffset (by omega)
  have hle : n / access.bytes ≤ n := Nat.div_le_self _ _
  have hmod : (n : Int) % access.bytes = 0 := by exact_mod_cast Nat.mod_eq_zero_of_dvd hdvd
  have hdiv : (n : Int) / access.bytes < 4096 := by
    rw [← Int.natCast_ediv]
    omega
  simp only [scaled?, hint]
  rw [if_pos ⟨by omega, hmod, hdiv⟩]
  rfl

end A64

/-- An argument is passed in a register of the bank that its slot is accessed by. -/
lemma Convention.register_of_mem_zip {c : Convention} {types : List DataType}
    {arguments : List Argument} {a : Argument} {type : DataType}
    (h : c.assignAll types = some arguments) (hmem : (a, type) ∈ arguments.zip types) :
    (Access.slot type).bank = a.bank ∧ a.index < c.count a.bank := by
  obtain ⟨htypes, -, -⟩ := assignAll_spec h
  obtain ⟨hscalar, hbank⟩ := List.forall₂_zip htypes.flip hmem
  obtain ⟨hno, hvector⟩ := DataType.isScalar_iff.mp hscalar
  exact ⟨by rw [hbank, Access.bank_slot hno hvector],
    index_lt_of_assignAll h a (List.of_mem_zip hmem).1⟩

/-! ## Instructions -/

namespace Isa

/-- There are bytes for the instruction. -/
def Encodes (isa : Isa) (i : Instr) : Prop := (isa.emission i).failure = none

/-- The offset into the frame is one that loads and stores can hold. -/
def Holds (isa : Isa) (access : Access) (offset : Int32) : Prop :=
  isa = .aarch64 → (A64.scaled? access offset).isSome

/-- The registers of the instruction are in the pools, of the banks that it works on, its offset
into the frame can be held, and its operation is one of the instruction set. -/
inductive Admits (isa : Isa) : Instr → Prop where
  | epilogue : Admits isa .epilogue
  | spillArg {a : Argument} {access : Access} {offset : Int32} (bank : access.bank = a.bank)
      (index : a.index < isa.convention.count a.bank) (frame : isa.Holds access offset) :
      Admits isa (.spillArg a access offset)
  | loadArg {a : Argument} {access : Access} {offset : Int32} (bank : access.bank = a.bank)
      (index : a.index < isa.convention.count a.bank) (frame : isa.Holds access offset) :
      Admits isa (.loadArg a access offset)
  | load {access : Access} {r : Reg} {base : Base} {offset : Int32} (bank : access.bank = r.bank)
      (index : r.index < isa.pool r.bank)
      (pointer : ∀ index, base = .reg index → index < isa.pool .general)
      (frame : base = .frame → isa.Holds access offset) : Admits isa (.load access r base offset)
  | store {access : Access} {r : Reg} {base : Base} {offset : Int32} (bank : access.bank = r.bank)
      (index : r.index < isa.pool r.bank)
      (pointer : ∀ index, base = .reg index → index < isa.pool .general)
      (frame : base = .frame → isa.Holds access offset) : Admits isa (.store access r base offset)
  | movImm {dst : Nat} {value : Int64} {wide : Bool} (dst_lt : dst < isa.pool .general) :
      Admits isa (.movImm dst value wide)
  | fmovImm {dst : Nat} {bits : UInt64} {double : Bool} (dst_lt : dst < isa.pool .vector) :
      Admits isa (.fmovImm dst bits double)
  | intOp {op : IntOp} {wide : Bool} {dst rhs : Nat} (op_ne : isa = .aarch64 → op ≠ .rol)
      (dst_lt : dst < isa.pool .general) (rhs_lt : rhs < isa.pool .general) :
      Admits isa (.intOp op wide dst rhs)
  | intNeg {wide : Bool} {dst : Nat} (dst_lt : dst < isa.pool .general) :
      Admits isa (.intNeg wide dst)
  | floatOp {op : FloatOp} {double : Bool} {dst rhs : Nat} (dst_lt : dst < isa.pool .vector)
      (rhs_lt : rhs < isa.pool .vector) : Admits isa (.floatOp op double dst rhs)
  | floatSqrt {double : Bool} {dst : Nat} (dst_lt : dst < isa.pool .vector) :
      Admits isa (.floatSqrt double dst)
  | vectorOp {cpu : Cpu} {op : VectorOp} {lane : Lane} {dst rhs : Nat} (isa_eq : cpu.isa = isa)
      (supported : cpu.supports op lane = true) (dst_lt : dst < isa.pool .vector)
      (rhs_lt : rhs < isa.pool .vector) : Admits isa (.vectorOp op lane dst rhs)
  | compare {wide : Bool} {lhs rhs : Nat} (lhs_lt : lhs < isa.pool .general)
      (rhs_lt : rhs < isa.pool .general) : Admits isa (.compare wide lhs rhs)
  | moveResult {r : Reg} (index : r.index < isa.pool r.bank) : Admits isa (.moveResult r)
  | takeResult {r : Reg} (index : r.index < isa.pool r.bank) : Admits isa (.takeResult r)

end Isa

namespace X64

variable {i : Instr} {r : Reg} {access : Access}

/-- The number of a pool register of the bank that an access is to. -/
lemma exists_checked (hbank : access.bank = r.bank) (h : r.index < Isa.x64.pool r.bank) :
    ∃ l, locate r = .ok l ∧ checkBank access l = .ok l.number := by
  obtain ⟨l, hl, hlbank⟩ := exists_locate h
  exact ⟨l, hl, checkBank_eq (hbank.trans hlbank.symm)⟩

lemma exists_base {base : Base}
    (h : ∀ index, base = .reg index → index < Isa.x64.pool .general) :
    ∃ b, baseRegister base = .ok b := by
  cases base with
  | reg index => exact exists_general (h index rfl)
  | frame => exact ⟨_, rfl⟩

lemma exists_checkedArgument {a : Argument} (hbank : access.bank = a.bank)
    (h : a.index < Isa.x64.convention.count a.bank) :
    ∃ l, locateArgument a = .ok l ∧ checkBank access l = .ok l.number := by
  obtain ⟨l, hl, hlbank⟩ := exists_locateArgument h
  exact ⟨l, hl, checkBank_eq (hbank.trans hlbank.symm)⟩

/-- Instructions of x86-64 are found for what it admits. -/
lemma exists_select (h : Isa.x64.Admits i) : ∃ insts, select i = .ok insts := by
  cases h with
  | epilogue => exact ⟨_, rfl⟩
  | spillArg hbank hindex | loadArg hbank hindex =>
    obtain ⟨l, hl, hcheck⟩ := exists_checkedArgument hbank hindex
    simp [select, hl, hcheck]
  | load hbank hindex hpointer | store hbank hindex hpointer =>
    obtain ⟨b, hb⟩ := exists_base hpointer
    obtain ⟨l, hl, hcheck⟩ := exists_checked hbank hindex
    simp [select, hb, hl, hcheck]
  | movImm hdst | intNeg hdst =>
    obtain ⟨d, hd⟩ := exists_general hdst
    simp [select, hd]
  | fmovImm hdst | floatSqrt hdst =>
    obtain ⟨d, hd⟩ := exists_vector hdst
    simp [select, hd]
  | intOp _ hlhs hrhs | compare hlhs hrhs =>
    obtain ⟨l, hl⟩ := exists_general hlhs
    obtain ⟨r, hr⟩ := exists_general hrhs
    simp [select, hl, hr]
  | floatOp hdst hrhs =>
    obtain ⟨d, hd⟩ := exists_vector hdst
    obtain ⟨r, hr⟩ := exists_vector hrhs
    simp [select, hd, hr]
  | @vectorOp cpu op lane _ _ hisa hsupported hdst hrhs =>
    obtain ⟨d, hd⟩ := exists_vector hdst
    obtain ⟨r, hr⟩ := exists_vector hrhs
    unfold Cpu.supports Cpu.vectorSupport at hsupported
    rw [hisa] at hsupported
    obtain ⟨code, hcode⟩ : ∃ code, packedOpcode? op lane = some code := by
      cases op <;> cases lane <;> first | exact ⟨_, rfl⟩ | simp [Lane.isFloat] at hsupported
    simp [select, hd, hr, hcode]
  | moveResult hindex | takeResult hindex =>
    obtain ⟨l, hl, -⟩ := exists_locate hindex
    simp [select, hl]

end X64

namespace A64

variable {i : Instr}

/-- Instructions of AArch64 are found for what it admits. -/
lemma exists_selectUnlimited (h : Isa.aarch64.Admits i) :
    ∃ insts, selectUnlimited i = .ok insts := by
  cases h with
  | epilogue => exact ⟨_, rfl⟩
  | @spillArg _ access offset hbank hindex hframe =>
    obtain ⟨n, hn⟩ := exists_argumentRegister hbank hindex
    obtain ⟨insts, hinsts⟩ : ∃ insts, memory access false n .frame offset = .ok insts :=
      exists_memory false n (by simp) fun _ => hframe rfl
    simp [selectUnlimited, hn, hinsts]
  | @loadArg _ access offset hbank hindex hframe =>
    obtain ⟨n, hn⟩ := exists_argumentRegister hbank hindex
    obtain ⟨insts, hinsts⟩ : ∃ insts, memory access true n .frame offset = .ok insts :=
      exists_memory true n (by simp) fun _ => hframe rfl
    simp [selectUnlimited, hn, hinsts]
  | load hbank hindex hpointer hframe =>
    obtain ⟨n, hn⟩ := exists_accessRegister hbank hindex
    obtain ⟨insts, hinsts⟩ := exists_memory true n hpointer fun h => hframe h rfl
    simp [selectUnlimited, hn, hinsts]
  | store hbank hindex hpointer hframe =>
    obtain ⟨n, hn⟩ := exists_accessRegister hbank hindex
    obtain ⟨insts, hinsts⟩ := exists_memory false n hpointer fun h => hframe h rfl
    simp [selectUnlimited, hn, hinsts]
  | movImm hdst | intNeg hdst =>
    obtain ⟨d, hd⟩ := exists_general hdst
    simp [selectUnlimited, hd]
  | fmovImm hdst | floatSqrt hdst =>
    obtain ⟨d, hd⟩ := exists_vector hdst
    simp [selectUnlimited, hd]
  | @intOp op _ _ _ hop hdst hrhs =>
    obtain ⟨d, hd⟩ := exists_general hdst
    obtain ⟨r, hr⟩ := exists_general hrhs
    -- AArch64 lacks one operation, which is to rotate to the left
    obtain ⟨o, ho⟩ : ∃ o, dataOp? op = some o := by
      cases op <;> first | exact ⟨_, rfl⟩ | exact absurd rfl (hop rfl)
    simp [selectUnlimited, hd, hr, ho]
  | compare hlhs hrhs =>
    obtain ⟨l, hl⟩ := exists_general hlhs
    obtain ⟨r, hr⟩ := exists_general hrhs
    simp [selectUnlimited, hl, hr]
  | floatOp hdst hrhs =>
    obtain ⟨d, hd⟩ := exists_vector hdst
    obtain ⟨r, hr⟩ := exists_vector hrhs
    simp [selectUnlimited, hd, hr]
  | @vectorOp cpu op lane _ _ hisa hsupported hdst hrhs =>
    obtain ⟨d, hd⟩ := exists_vector hdst
    obtain ⟨r, hr⟩ := exists_vector hrhs
    unfold Cpu.supports Cpu.vectorSupport at hsupported
    rw [hisa] at hsupported
    obtain ⟨code, hcode⟩ : ∃ code, packedPattern? op lane = some code := by
      cases op <;> cases lane <;> first | exact ⟨_, rfl⟩ | simp [Lane.isFloat] at hsupported
    simp [selectUnlimited, hd, hr, hcode]
  | @moveResult r hindex | @takeResult r hindex =>
    cases r with
    | general index =>
      obtain ⟨d, hd⟩ : ∃ d, general index = .ok d := exists_general hindex
      simp [selectUnlimited, hd]
    | vector index =>
      obtain ⟨d, hd⟩ : ∃ d, vector index = .ok d := exists_vector hindex
      simp [selectUnlimited, hd]

end A64

/-- **What an instruction set admits has an encoding.** -/
theorem Isa.Admits.encodes {isa : Isa} {i : Instr} (h : isa.Admits i) : isa.Encodes i := by
  have hprologue : ∀ frame, i ≠ .prologue frame := by
    rintro frame rfl
    cases h
  cases isa with
  | x64 =>
    obtain ⟨insts, hinsts⟩ := X64.exists_select h
    cases i with
    | prologue frame => exact absurd rfl (hprologue frame)
    | _ => simp [Encodes, emission, hinsts]
  | aarch64 =>
    obtain ⟨insts, hinsts⟩ := A64.exists_selectUnlimited h
    have hselect : A64.select i = .ok insts := by
      rw [A64.select, hinsts]
      · rfl
      · exact hprologue
    simp [Encodes, emission, hselect]

end TreeCode
