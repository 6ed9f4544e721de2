import Mathlib.Tactic.Common
import TreeCode.Assembly
import TreeCode.Proofs.Transfers

/-!
# Placing operations

The operations of a method are placed one after the other until one of them fails.  Where an error
of assembling comes from is said here: the encoding of an instruction, a label, the distance of a
transfer, an address that there is not, or lowering itself.
-/

namespace TreeCode

namespace Isa

variable {isa : Isa} {i : Instr} {e : CodeError}

/-- An instruction without bytes is beyond the instruction set, or makes a frame that AArch64 cannot
make at once. -/
lemma failure_of_emission (h : (isa.emission i).failure = some e) :
    (∃ fault, e = .encoding fault) ∨
      isa = .aarch64 ∧ ∃ frame, i = .prologue frame ∧ A64.maxFrame < frame ∧
        e = .unsupported "method" .noType (.frame frame) := by
  unfold emission at h
  split at h
  · split at h
    · cases h
    · exact .inl ⟨_, (Option.some.inj h).symm⟩
  · split at h
    · cases h
    · exact .inl ⟨_, (Option.some.inj h).symm⟩
  · split at h
    · cases h
    · rename_i e' hselect
      obtain rfl := Option.some.inj h
      unfold A64.select at hselect
      split at hselect
      · split at hselect
        · rename_i hframe
          cases hselect
          exact .inr ⟨rfl, _, rfl, hframe, rfl⟩
        · cases hselect
      · obtain ⟨fault, -, rfl⟩ := Except.mapError_eq_error_iff.mp hselect
        exact .inl ⟨fault, rfl⟩

end Isa

/-- A transfer that fails is beyond the instruction set. -/
lemma Assembler.fault_of_transfer {a : Assembler} {t : Transfer} {form : BranchForm}
    {e : CodeError} (h : (a.step (.transfer t form)).2 = some e) :
    ∃ fault, e = .encoding fault := by
  cases t with
  | jump label =>
    cases hjump : a.jump label form with
    | ok b => simp [step, transfer, hjump] at h
    | error fault => exact ⟨fault, by simpa [step, transfer, hjump, eq_comm] using h⟩
  | branchIf c label =>
    cases hjump : (a.append (a.isa.skip c form)).jump label form with
    | ok b => simp [step, transfer, hjump] at h
    | error fault => exact ⟨fault, by simpa [step, transfer, hjump, eq_comm] using h⟩
  | call target =>
    cases hcall : a.isa.call a.base form a.offset target with
    | ok bytes => simp [step, transfer, hcall, Except.map] at h
    | error fault => exact ⟨fault, by simpa [step, transfer, hcall, Except.map, eq_comm] using h⟩

namespace Placement

variable {p q : Placement} {limit : Nat} {o : Op} {ops : List Op} {e : CodeError}

/-- The step of the assembler by which an operation is placed. -/
inductive Chooses (limit : Nat) (p : Placement) : Op → Step → Prop
  | instr {i : Instr} : Chooses limit p (.instr i) (.instr i)
  | bind {label : Nat} : Chooses limit p (.bind label) (.bind label)
  | transfer {t : Transfer} {form : BranchForm} (h : p.form limit t = .ok form) :
      Chooses limit p (.transfer t) (.transfer t form)

lemma asm_count (p : Placement) (form : BranchForm) : (p.count form).asm = p.asm := by
  cases form <;> rfl

lemma step_eq_ok_iff {s : Step} : p.step s = .ok q ↔
    (p.asm.step s).2 = none ∧ q = { p with asm := (p.asm.step s).1 } := by
  unfold step
  split
  · rename_i heq
    simp [heq]
  · rename_i heq
    simp [heq, eq_comm]

lemma step_eq_error_iff {s : Step} : p.step s = .error e ↔ (p.asm.step s).2 = some e := by
  unfold step
  split
  · rename_i heq
    simp [heq]
  · rename_i heq
    simp [heq]

/-- An operation that is placed is a step that does not fail. -/
lemma chooses_of_place (h : p.place limit o = .ok q) :
    ∃ s, p.Chooses limit o s ∧ (p.asm.step s).2 = none ∧ q.asm = (p.asm.step s).1 := by
  cases o with
  | instr i =>
    obtain ⟨hnone, rfl⟩ := step_eq_ok_iff.mp h
    exact ⟨_, .instr, hnone, rfl⟩
  | bind label =>
    obtain ⟨hnone, rfl⟩ := step_eq_ok_iff.mp h
    exact ⟨_, .bind, hnone, rfl⟩
  | transfer t =>
    obtain ⟨form, hform, h⟩ := Except.bind_eq_ok_iff.mp h
    obtain ⟨hnone, rfl⟩ := step_eq_ok_iff.mp h
    rw [asm_count] at hnone
    exact ⟨_, .transfer hform, hnone, by rw [asm_count]⟩

/-- An operation that cannot be placed is a step that fails, or has no form. -/
lemma chooses_of_place_eq_error (h : p.place limit o = .error e) :
    (∃ s, p.Chooses limit o s ∧ (p.asm.step s).2 = some e) ∨
      ∃ t, o = .transfer t ∧ p.form limit t = .error e := by
  cases o with
  | instr i => exact .inl ⟨_, .instr, step_eq_error_iff.mp h⟩
  | bind label => exact .inl ⟨_, .bind, step_eq_error_iff.mp h⟩
  | transfer t =>
    rcases Except.bind_eq_error_iff.mp h with h | ⟨form, hform, h⟩
    · exact .inr ⟨t, rfl, h⟩
    · have hstep := step_eq_error_iff.mp h
      rw [asm_count] at hstep
      exact .inl ⟨_, .transfer hform, hstep⟩

/-- Placing operations puts pieces behind those that are there. -/
lemma exists_made_of_foldlM {ps : List Piece} (hmade : p.asm.Made ps)
    (h : ops.foldlM (place limit) p = .ok q) :
    ∃ qs, q.asm.Made (ps ++ qs) ∧ p.asm.Extends q.asm := by
  induction ops generalizing p ps with
  | nil =>
    cases h
    exact ⟨[], by rwa [List.append_nil], .refl _⟩
  | cons o ops ih =>
    rw [List.foldlM_cons] at h
    obtain ⟨next, hplace, h⟩ := Except.bind_eq_ok_iff.mp h
    obtain ⟨s, -, -, hnext⟩ := chooses_of_place hplace
    obtain ⟨qs, hmade', hextends⟩ := Assembler.exists_made_step hmade s
    rw [← hnext] at hmade' hextends
    obtain ⟨rs, hmade'', hextends'⟩ := ih hmade' h
    exact ⟨qs ++ rs, by rwa [← List.append_assoc], hextends.trans hextends'⟩

lemma made_start (isa : Isa) (base : UInt64) (labels : Nat) :
    (start isa base labels).asm.Made [] := ⟨rfl, rfl⟩

/-- Code is placed for one instruction set and address. -/
lemma extends_of_foldlM {isa : Isa} {base : UInt64} {labels : Nat}
    (h : ops.foldlM (place limit) (start isa base labels) = .ok p) :
    p.asm.isa = isa ∧ p.asm.base = base := by
  obtain ⟨-, -, hextends⟩ := exists_made_of_foldlM (made_start isa base labels) h
  exact ⟨hextends.isa, hextends.base⟩

/-- There is no form only where there is no address. -/
lemma form_eq_error {t : Transfer} (h : p.form limit t = .error e) :
    e = .addressSpace p.asm.base limit := by
  have haddress {offset : Nat} (h : p.address limit offset = .error e) :
      e = .addressSpace p.asm.base limit := by
    unfold address at h
    split at h
    · cases h
    · cases h
      rfl
  have hlabel {lead label : Nat} (h : p.labelForm limit lead label = .error e) :
      e = .addressSpace p.asm.base limit := by
    rcases Except.bind_eq_error_iff.mp h with h | ⟨_, -, h⟩
    · exact haddress h
    · rcases Except.bind_eq_error_iff.mp h with h | ⟨_, -, h⟩
      · exact haddress h
      · cases h
  cases t with
  | jump label => exact hlabel h
  | branchIf c label => exact hlabel h
  | call target =>
    rcases Except.bind_eq_error_iff.mp h with h | ⟨_, -, h⟩
    · exact haddress h
    · cases h

/-- Why an operation cannot be placed. -/
lemma place_eq_error (h : p.place limit o = .error e) :
    (∃ fault, e = .encoding fault) ∨ e = .addressSpace p.asm.base limit ∨
      p.asm.isa = .aarch64 ∧ ∃ frame, o = .instr (.prologue frame) ∧ A64.maxFrame < frame ∧
        e = .unsupported "method" .noType (.frame frame) := by
  rcases chooses_of_place_eq_error h with ⟨s, hs, hstep⟩ | ⟨t, -, ht⟩
  · cases hs with
    | instr =>
      rcases Isa.failure_of_emission hstep with hfault | ⟨hisa, frame, rfl, hframe, he⟩
      · exact .inl hfault
      · exact .inr (.inr ⟨hisa, frame, rfl, hframe, he⟩)
    | @bind label =>
      left
      rw [Assembler.step] at hstep
      split at hstep
      · cases hstep
      · exact ⟨_, (Option.some.inj hstep).symm⟩
    | @transfer t form =>
      exact .inl (Assembler.fault_of_transfer hstep)
  · exact .inr (.inl (form_eq_error ht))

end Placement

/-! ## Errors of assembling -/

variable {l : Lowering Unit} {isa : Isa} {base : UInt64} {limit labels : Nat} {e : CodeError}

/-- Assembling fails at an operation, or because lowering did, or when it is finished. -/
lemma Lowering.assemble_eq_error (h : l.assemble isa base limit labels = .error e) :
    (∃ before o after p, l.ops = before ++ o :: after ∧
      before.foldlM (Placement.place limit) (Placement.start isa base labels) = .ok p ∧
        p.place limit o = .error e) ∨
    l.result = .error e ∨
    ∃ p fault, l.ops.foldlM (Placement.place limit) (Placement.start isa base labels) = .ok p ∧
      l.result = .ok () ∧ p.asm.finish = .error fault ∧ e = .encoding fault := by
  rcases Except.bind_eq_error_iff.mp h with h | ⟨p, hp, h⟩
  · exact .inl (Except.exists_of_foldlM_eq_error h)
  · rcases Except.bind_eq_error_iff.mp h with h | ⟨u, hu, h⟩
    · exact .inr (.inl h)
    · rcases Except.bind_eq_error_iff.mp h with h | ⟨bytes, -, h⟩
      · obtain ⟨fault, hfault, rfl⟩ := Except.mapError_eq_error_iff.mp h
        exact .inr (.inr ⟨p, fault, hp, hu, hfault, rfl⟩)
      · cases h

/-- A method is assembled if its code is made and keeps within the limit. -/
lemma Method.assemble_eq_ok_iff {m : Method} {cpu : Cpu} {options : Options} {code : MachineCode} :
    m.assemble cpu base options = .ok code ↔
      m.codeAt cpu options.fallback base options.maxCodeSize = .ok code ∧
        code.bytes.size ≤ options.maxCodeSize := by
  unfold assemble
  rw [Except.bind_eq_ok_iff]
  constructor
  · rintro ⟨code', hcode, h⟩
    split at h
    · cases h
    · rename_i hsize
      cases h
      exact ⟨hcode, Nat.le_of_not_lt hsize⟩
  · rintro ⟨hcode, hsize⟩
    exact ⟨code, hcode, by rw [if_neg (Nat.not_lt.mpr hsize)]⟩

/-- A method is not assembled because of its address, its flow of control or its size, or because
its operations are not. -/
lemma Method.assemble_eq_error {m : Method} {cpu : Cpu} {options : Options}
    (h : m.assemble cpu base options = .error e) :
    e = .addressSpace base options.maxCodeSize ∨
    (∃ defect, m.checkFlow = .error defect ∧ e = .flow defect) ∨
    (∃ size, e = .codeTooLarge size options.maxCodeSize) ∨
    base.toNat + options.maxCodeSize < wordRange ∧ m.checkFlow = .ok () ∧
      (m.lower cpu options.fallback).assemble cpu.isa base options.maxCodeSize
        (m.blocks.length + 1) = .error e := by
  rcases Except.bind_eq_error_iff.mp h with h | ⟨code, -, h⟩
  · unfold codeAt at h
    split at h
    · cases h
      exact .inl rfl
    · rename_i hrange
      rcases Except.bind_eq_error_iff.mp h with h | ⟨u, hu, h⟩
      · obtain ⟨defect, hdefect, rfl⟩ := Except.mapError_eq_error_iff.mp h
        exact .inr (.inl ⟨defect, hdefect, rfl⟩)
      · exact .inr (.inr (.inr ⟨by omega, Except.mapError_eq_ok_iff.mp hu, h⟩))
  · split at h
    · cases h
      exact .inr (.inr (.inl ⟨_, rfl⟩))
    · cases h

/-- The error is one that lowering ends with. -/
def CodeError.OfLowering : CodeError → Prop
  | .unsupported _ _ _ | .unsupportedCapability _ _ _ | .registerPressure _ _ => True
  | _ => False

/-- With an error of lowering a method is not assembled because lowering ends with it.  The only
other reason for such an error is a frame that is too large for AArch64. -/
lemma Method.lower_of_assemble_eq_error {m : Method} {cpu : Cpu} {options : Options}
    (h : m.assemble cpu base options = .error e) (he : e.OfLowering) :
    (m.lower cpu options.fallback).result = .error e ∨
      cpu.isa = .aarch64 ∧ ∃ frame, .instr (.prologue frame) ∈ (m.lower cpu options.fallback).ops ∧
        A64.maxFrame < frame ∧ e = .unsupported "method" .noType (.frame frame) := by
  rcases assemble_eq_error h with rfl | ⟨_, -, rfl⟩ | ⟨_, rfl⟩ | ⟨-, -, hcode⟩
  · cases he
  · cases he
  · cases he
  rcases Lowering.assemble_eq_error hcode with ⟨before, o, after, p, hops, hbefore, hplace⟩ |
    hresult | ⟨_, _, -, -, -, rfl⟩
  · rcases Placement.place_eq_error hplace with ⟨_, rfl⟩ | rfl | ⟨hisa, frame, rfl, hframe, rfl⟩
    · cases he
    · cases he
    · rw [(Placement.extends_of_foldlM hbefore).1] at hisa
      refine .inr ⟨hisa, frame, ?_, hframe, rfl⟩
      rw [hops]
      exact List.mem_append_right _ List.mem_cons_self
  · exact .inl hresult
  · cases he

end TreeCode
