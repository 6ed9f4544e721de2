import Mathlib.Tactic.Common
import TreeCode.Proofs.Faults

/-!
# What steps that fail leave behind

A step of the assembler checks before it emits anything, so that a step that fails has done nothing.
Two steps have emitted something before they fail (`Assembler.Halfway`): a conditional branch that
does not reach back to its label has put down the branch around its jump, and on x86-64 a prologue
whose frame is too large has made the link to the frame of the caller.  `Assembler.failed_step`
says that there are no others, for all sequences of steps.
-/

namespace TreeCode

open Isa (address)

/-! ## Instructions -/

/-- An instruction without an encoding has no bytes, but for the link that a prologue begins
with. -/
lemma Isa.bytes_of_failure {isa : Isa} {i : Instr} {e : CodeError}
    (h : (isa.emission i).failure = some e) :
    (isa.emission i).bytes = [] ∨ isa = .x64 ∧ ∃ frame, i = .prologue frame ∧
      2 ^ 31 ≤ frame.toNat ∧ (isa.emission i).bytes = X64.encodeAll X64.frameLink := by
  revert h
  unfold emission
  split
  · rename_i frame
    split
    · rintro ⟨⟩
    · rename_i fault hroom
      have hfault : (x64.emission (.prologue frame)).failure = some (.encoding fault) := by
        simp only [emission, hroom]
      exact fun _ => .inr ⟨rfl, frame, rfl, (fault_of_prologue hfault).2, rfl⟩
  · split
    · rintro ⟨⟩
    · exact fun _ => .inl rfl
  · split
    · rintro ⟨⟩
    · exact fun _ => .inl rfl

/-- A direct jump back has an encoding only within the limit. -/
lemma Isa.le_of_jump {isa : Isa} {base : UInt64} {place target : Nat} {bytes : List UInt8}
    (h : isa.jump base .direct place target = .ok bytes) (htarget : target ≤ place)
    (hplace : place < 2 ^ 63) : place ≤ target + isa.branchLimits.backward.toNat := by
  cases isa with
  | x64 =>
    obtain ⟨d, hd, -⟩ := Except.bind_eq_ok_iff.mp h
    have hlow := d.le_toInt
    have hhigh := d.toInt_lt
    have hland := congrArg UInt64.toNat (X64.add_distance hd)
    have h5 : (5 : UInt64).toNat = 5 := rfl
    have hb : x64.branchLimits.backward.toNat = 2147483643 := rfl
    simp only [address, UInt64.toNat_add, h5, UInt64.ofInt, UInt64.toNat_ofNat'] at hland
    rw [hb]
    omega
  | aarch64 =>
    obtain ⟨w, hw, -⟩ := Except.bind_eq_ok_iff.mp h
    obtain ⟨q, -, hlow, hhigh, hq⟩ := A64.words_eq_ok hw
    have hdelta : (Int64.ofInt ((target : Int) - place)).toInt = (target : Int) - place :=
      Int64.toInt_ofInt_of_le (by omega) (by omega)
    have hb : aarch64.branchLimits.backward.toNat = 134217728 := rfl
    rw [hdelta] at hq
    rw [hb]
    omega

namespace Assembler

variable {a b : Assembler} {s : Step} {t : Transfer} {label : Nat} {form : BranchForm}
  {bytes : List UInt8} {e : CodeError} {fault : EncodingFault}

/-! ## Whole instructions -/

/-- Code that consists of whole instructions and has its labels at instructions. -/
structure Whole (a : Assembler) : Prop where
  aligned : a.isa.alignment ∣ a.offset
  bound : ∀ label target, a.labelOffset? label = some target →
    a.isa.alignment ∣ target ∧ target ≤ a.offset

/-- How code grows by whole instructions behind its end. -/
structure Grows (a b : Assembler) : Prop where
  isa : b.isa = a.isa
  labels : b.labels = a.labels
  offset : ∃ n, a.isa.alignment ∣ n ∧ b.offset = a.offset + n

lemma Grows.refl (a : Assembler) : a.Grows a := ⟨rfl, rfl, 0, Nat.dvd_zero _, rfl⟩

lemma Grows.trans {d : Assembler} (hab : a.Grows b) (hbd : b.Grows d) : a.Grows d := by
  obtain ⟨n, hn, hoffset⟩ := hab.offset
  obtain ⟨m, hm, hoffset'⟩ := hbd.offset
  rw [hab.isa] at hm
  exact ⟨hbd.isa.trans hab.isa, hbd.labels.trans hab.labels, n + m, Nat.dvd_add hn hm,
    by rw [hoffset', hoffset, Nat.add_assoc]⟩

lemma grows_append (h : a.isa.alignment ∣ bytes.length) : a.Grows (a.append bytes) :=
  ⟨rfl, rfl, bytes.length, h, offset_append a bytes⟩

lemma grows_skip (a : Assembler) (c : Condition) (form : BranchForm) :
    a.Grows (a.append (a.isa.skip c form)) := by
  refine grows_append ?_
  rw [Isa.length_skip]
  exact Isa.alignment_dvd_conditionBytes

lemma grows_jump (h : a.jump label form = .ok b) : a.Grows b := by
  refine ⟨?_, labels_jump h, _, Isa.alignment_dvd_jumpBytes form, offset_jump h⟩
  unfold jump at h
  split at h
  · obtain ⟨bytes, -, h⟩ := Except.bind_eq_ok_iff.mp h
    cases h
    rfl
  · cases h
    rfl

lemma grows_transfer (a : Assembler) (t : Transfer) (form : BranchForm) :
    a.Grows (a.transfer t form).1 := by
  cases t with
  | jump label =>
    cases hjump : a.jump label form with
    | ok b => simpa only [transfer, hjump] using grows_jump hjump
    | error fault => simpa only [transfer, hjump] using Grows.refl a
  | branchIf c label =>
    cases hjump : (a.append (a.isa.skip c form)).jump label form with
    | ok b => simpa only [transfer, hjump] using (grows_skip a c form).trans (grows_jump hjump)
    | error fault => simpa only [transfer, hjump] using grows_skip a c form
  | call target =>
    cases hcall : a.isa.call a.base form a.offset target with
    | ok bytes =>
      simpa only [transfer, hcall, Except.map] using grows_append (Isa.alignment_dvd_call hcall)
    | error fault => simpa only [transfer, hcall, Except.map] using Grows.refl a

lemma Whole.grows (h : a.Whole) (hgrows : a.Grows b) : b.Whole := by
  obtain ⟨hisa, hlabels, n, hn, hoffset⟩ := hgrows
  refine ⟨by rw [hisa, hoffset]; exact Nat.dvd_add h.aligned hn, fun label target ht => ?_⟩
  have ht : a.labelOffset? label = some target := by
    rwa [labelOffset?, hlabels] at ht
  obtain ⟨hdvd, hle⟩ := h.bound label target ht
  exact ⟨by rwa [hisa], by omega⟩

lemma Whole.bind (h : a.Whole) (hbind : a.bind label = .ok b) : b.Whole := by
  obtain ⟨hisa, -, hcode, -⟩ := same_bind hbind
  have hoffset : b.offset = a.offset := by rw [offset, hcode, offset]
  refine ⟨by rw [hisa, hoffset]; exact h.aligned, fun other target ht => ?_⟩
  rw [labelOffset?_bind hbind] at ht
  rw [hisa, hoffset]
  split at ht
  · obtain rfl := Option.some.inj ht
    exact ⟨h.aligned, Nat.le_refl _⟩
  · exact h.bound other target ht

lemma Whole.newLabel (h : a.Whole) : Whole { a with labels := a.labels.push none } := by
  refine ⟨h.aligned, fun label target ht => h.bound label target ?_⟩
  unfold labelOffset? at ht ⊢
  rw [Array.getElem?_push] at ht
  split at ht
  · cases ht
  · exact ht

/-- Whatever is done, and whether it fails, code stays whole. -/
lemma Whole.step (h : a.Whole) (s : Step) : (a.step s).1.Whole := by
  cases s with
  | newLabel => exact h.newLabel
  | instr i => exact h.grows (grows_append (Isa.alignment_dvd_emission i))
  | bind label =>
    rw [Assembler.step]
    cases hbind : a.bind label with
    | ok b => exact h.bind hbind
    | error fault => exact h
  | transfer t form => exact h.grows (grows_transfer a t form)

lemma Whole.run (h : a.Whole) (steps : List Step) : (a.run steps).Whole := by
  induction steps generalizing a with
  | nil => exact h
  | cons s steps ih => exact ih (h.step s)

lemma whole_new (isa : Isa) (base : UInt64) : (new isa base).Whole := by
  refine ⟨Nat.dvd_zero _, fun label target ht => ?_⟩
  simp [labelOffset?, new] at ht

/-! ## Failures -/

/-- A jump fails only if it is direct and its label is bound, out of reach behind it. -/
lemma far_of_jump_eq_error (h : a.Whole) (hjump : a.jump label form = .error fault) :
    form = .direct ∧ ∃ target, a.labelOffset? label = some target ∧
      target + a.isa.branchLimits.backward.toNat < a.offset := by
  cases htarget : a.labelOffset? label with
  | none => simp [jump, htarget] at hjump
  | some target =>
    cases form with
    | indirect => cases hisa : a.isa <;> simp [jump, htarget, hisa, Isa.jump] at hjump
    | direct =>
      refine ⟨rfl, target, rfl, ?_⟩
      obtain ⟨hdvd, hle⟩ := h.bound label target htarget
      have haligned := h.aligned
      by_contra hnear
      have hspans : a.isa.Spans a.offset target := by
        cases hisa : a.isa with
        | x64 =>
          have hb : Isa.x64.branchLimits.backward.toNat = 2147483643 := rfl
          rw [hisa, hb] at hnear
          show -2 ^ 31 ≤ (target : Int) - (a.offset + 5 : Nat) ∧
            (target : Int) - (a.offset + 5 : Nat) < 2 ^ 31
          omega
        | aarch64 =>
          have hb : Isa.aarch64.branchLimits.backward.toNat = 134217728 := rfl
          have h4 : Isa.aarch64.alignment = 4 := rfl
          rw [hisa, hb] at hnear
          rw [hisa, h4] at hdvd haligned
          show (4 : Int) ∣ (target : Int) - a.offset ∧
            -2 ^ 25 ≤ ((target : Int) - a.offset) / 4 ∧ ((target : Int) - a.offset) / 4 < 2 ^ 25
          omega
      obtain ⟨bytes, hbytes⟩ := @Isa.exists_jump _ a.base _ _ hspans
      simp [jump, htarget, hbytes] at hjump

/-- The steps that have emitted something when they fail, and what: a direct conditional branch to
a label that is bound out of reach, the branch around its jump; on x86-64 a prologue with a frame of
2^31 bytes or more, `push rbp; mov rbp, rsp`. -/
inductive Halfway (a : Assembler) : Step → List UInt8 → Prop
  | branchIf {c : Condition} {label target : Nat} (bound : a.labelOffset? label = some target)
      (far : target + a.isa.branchLimits.backward.toNat < a.offset + a.isa.conditionBytes) :
      Halfway a (.transfer (.branchIf c label) .direct) (a.isa.skip c .direct)
  | prologue {frame : UInt32} (isa : a.isa = .x64) (large : 2 ^ 31 ≤ frame.toNat) :
      Halfway a (.instr (.prologue frame))
        (X64.encodeAll [.push X64.rbp, .movReg true X64.rbp X64.rsp])

/-- A step that fails has done nothing, or is one of the two. -/
lemma same_or_halfway (h : a.Whole) (hstep : (a.step s).2 = some e) :
    (a.step s).1 = a ∨ ∃ bytes, a.Halfway s bytes := by
  cases s with
  | newLabel => cases hstep
  | instr i =>
    rcases Isa.bytes_of_failure hstep with hbytes | ⟨hisa, frame, rfl, hlarge, -⟩
    · exact .inl (congrArg a.append hbytes)
    · exact .inr ⟨_, .prologue hisa hlarge⟩
  | bind label =>
    left
    rw [step] at hstep ⊢
    split at hstep
    · cases hstep
    · rfl
  | transfer t form =>
    cases t with
    | jump label =>
      left
      cases hjump : a.jump label form with
      | ok b => simp [step, transfer, hjump] at hstep
      | error fault => simp only [step, transfer, hjump]
    | branchIf c label =>
      right
      cases hjump : (a.append (a.isa.skip c form)).jump label form with
      | ok b => simp [step, transfer, hjump] at hstep
      | error fault =>
        obtain ⟨rfl, target, hbound, hfar⟩ :=
          far_of_jump_eq_error (h.grows (grows_skip a c form)) hjump
        rw [offset_append, Isa.length_skip] at hfar
        exact ⟨_, .branchIf hbound hfar⟩
    | call target =>
      left
      cases hcall : a.isa.call a.base form a.offset target with
      | ok bytes => simp [step, transfer, hcall, Except.map] at hstep
      | error fault => simp only [step, transfer, hcall, Except.map]

/-- What the two leave behind if they fail. -/
lemma Halfway.step_eq (h : a.Halfway s bytes) (hstep : (a.step s).2 = some e) :
    (a.step s).1 = a.append bytes := by
  cases h with
  | @branchIf c label target =>
    cases hjump : (a.append (a.isa.skip c .direct)).jump label .direct with
    | ok b => simp [step, transfer, hjump] at hstep
    | error fault => simp only [step, transfer, hjump]
  | @prologue frame hisa hlarge =>
    rw [step, hisa] at hstep ⊢
    cases hroom : X64.frameRoom frame with
    | ok room => simp [Isa.emission, hroom] at hstep
    | error fault => simp only [Isa.emission, hroom, X64.frameLink]

/-- The two do fail, in code of any size that a machine can hold. -/
theorem Halfway.exists_failure (h : a.Halfway s bytes) (hsize : a.offset < 2 ^ 62) :
    ∃ e, (a.step s).2 = some e := by
  cases h with
  | @branchIf c label target hbound hfar =>
    cases hjump : (a.append (a.isa.skip c .direct)).jump label .direct with
    | error fault => exact ⟨.encoding fault, by simp only [step, transfer, hjump]⟩
    | ok b =>
      have hbound' : (a.append (a.isa.skip c .direct)).labelOffset? label = some target := hbound
      rw [jump, hbound', offset_append, Isa.length_skip] at hjump
      obtain ⟨bs, hbs, -⟩ := Except.bind_eq_ok_iff.mp hjump
      have hlead : a.isa.conditionBytes ≤ 4 := by cases a.isa <;> decide
      have hreach := Isa.le_of_jump hbs (by omega) (by omega)
      exact absurd hreach (Nat.not_le.mpr hfar)
  | @prologue frame hisa hlarge =>
    cases hroom : X64.frameRoom frame with
    | error fault => exact ⟨.encoding fault, by simp only [step, hisa, Isa.emission, hroom]⟩
    | ok room =>
      unfold X64.frameRoom at hroom
      split at hroom
      · rename_i hzero
        rw [hzero] at hlarge
        cases hlarge
      · split at hroom
        · rename_i hsmall
          have hsmall := UInt32.lt_iff_toNat_lt.mp hsmall
          exact absurd hlarge (Nat.not_le.mpr hsmall)
        · cases hroom

/-- **A step that fails does nothing, with two exceptions.**  Of any sequence of steps for a new
assembler, whatever became of the steps before: one that fails leaves the labels and the list of
open jumps as they were.  Unless it is one of the two of `Halfway` it leaves everything as it was,
so that all that comes later is as if it had not been tried; each of the two leaves exactly the
bytes that are given there. -/
theorem failed_step {isa : Isa} {base : UInt64} {before : List Step}
    (h : (((new isa base).run before).step s).2 = some e) :
    let a := (new isa base).run before
    let b := (a.step s).1
    b.labels = a.labels ∧ b.fixups = a.fixups ∧
      ((∀ bytes, ¬ a.Halfway s bytes) → b = a ∧
        ∀ after, (new isa base).run (before ++ s :: after) = (new isa base).run (before ++ after)) ∧
      ∀ bytes, a.Halfway s bytes → b = a.append bytes ∧ b.code.toList = a.code.toList ++ bytes := by
  intro a b
  have hcases : b = a ∨ ∃ bytes, a.Halfway s bytes :=
    same_or_halfway ((whole_new isa base).run before) h
  have hhalfway (bytes : List UInt8) (hs : a.Halfway s bytes) : b = a.append bytes := hs.step_eq h
  have htables : b.labels = a.labels ∧ b.fixups = a.fixups := by
    rcases hcases with hsame | ⟨bytes, hs⟩
    · rw [hsame]
      exact ⟨rfl, rfl⟩
    · rw [hhalfway bytes hs]
      exact ⟨rfl, rfl⟩
  refine ⟨htables.1, htables.2, fun hnot => ?_, fun bytes hs => ?_⟩
  · have hsame : b = a := hcases.resolve_right fun ⟨bytes, hs⟩ => hnot bytes hs
    refine ⟨hsame, fun after => ?_⟩
    have hrun : a.run (s :: after) = b.run after := rfl
    rw [run_append, run_append, hrun, hsame]
  · rw [hhalfway bytes hs]
    exact ⟨rfl, toList_append a bytes⟩

/-- An operation that x86-64 does not have leaves nothing, and a frame that it cannot make leaves
the four bytes of the link. -/
theorem failed_step_x64 :
    (new .x64 0x1000).run [.newLabel, .instr (.vectorOp .mul .i8 0 1), .bind 0] =
        (new .x64 0x1000).run [.newLabel, .bind 0] ∧
      (((new .x64 0x1000).run [.newLabel]).step (.instr (.prologue 0x80000000))).1.code.toList =
        [0x55, 0x48, 0x89, 0xe5] := by
  constructor
  · have hfails : (((new .x64 0x1000).run [.newLabel]).step
        (.instr (.vectorOp .mul .i8 0 1))).2 = some _ := rfl
    refine ((failed_step hfails).2.2.1 fun bytes h => ?_).2 [.bind 0]
    cases h
  · have hfails : (((new .x64 0x1000).run [.newLabel]).step
        (.instr (.prologue 0x80000000))).2 = some _ := rfl
    exact ((failed_step hfails).2.2.2 _ (.prologue rfl (by decide))).2

lemma run_replicate_instr (a : Assembler) (i : Instr) (n : Nat) :
    a.Extends (a.run (List.replicate n (.instr i))) ∧
      (a.run (List.replicate n (.instr i))).offset =
        a.offset + n * (a.isa.emission i).bytes.length := by
  induction n generalizing a with
  | zero => exact ⟨.refl a, by simp [run]⟩
  | succ n ih =>
    obtain ⟨hextends, hoffset⟩ := ih (a.append (a.isa.emission i).bytes)
    refine ⟨(extends_append a _).trans hextends, ?_⟩
    rw [offset_append, append_isa] at hoffset
    rw [Nat.succ_mul]
    exact hoffset.trans (by omega)

/-- With enough epilogues behind a label, a direct branch to it leaves the branch around its
jump. -/
theorem exists_branchIf_halfway (isa : Isa) (base : UInt64) : ∃ before e,
    (((new isa base).run before).step (.transfer (.branchIf .eq 0) .direct)).2 = some e ∧
      (((new isa base).run before).step (.transfer (.branchIf .eq 0) .direct)).1 =
        ((new isa base).run before).append (isa.skip .eq .direct) := by
  obtain ⟨hextends, hoffset⟩ :=
    run_replicate_instr ((new isa base).run [.newLabel, .bind 0]) .epilogue (2 ^ 31)
  have hbound := hextends.labels 0 0 rfl
  have hisa : ((new isa base).run [.newLabel, .bind 0]).isa = isa := rfl
  have hzero : ((new isa base).run [.newLabel, .bind 0]).offset = 0 := rfl
  have hlength : (isa.emission .epilogue).bytes.length ≤ 12 ∧
      1 ≤ (isa.emission .epilogue).bytes.length := by
    cases isa <;> decide
  have hbackward : isa.branchLimits.backward.toNat ≤ 2 ^ 31 - 5 := by
    cases isa <;> decide
  have hcondition : 2 ≤ isa.conditionBytes := by
    cases isa <;> decide
  rw [hzero, hisa] at hoffset
  have hrun := run_append (new isa base) [.newLabel, .bind 0]
    (List.replicate (2 ^ 31) (.instr .epilogue))
  rw [← hrun] at hextends hoffset hbound
  have hhalfway : Halfway _ (.transfer (.branchIf .eq 0) .direct) _ := .branchIf hbound (by
    rw [hextends.isa, hisa, hoffset]
    omega)
  obtain ⟨e, he⟩ := hhalfway.exists_failure (by rw [hoffset]; omega)
  refine ⟨_, e, he, ?_⟩
  rw [hhalfway.step_eq he, hextends.isa, hisa]

end Assembler

end TreeCode
