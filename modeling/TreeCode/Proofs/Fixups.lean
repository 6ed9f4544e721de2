import TreeCode.Proofs.Reach
import TreeCode.Proofs.Refusals

/-!
# Open jumps are filled

A jump to a label that is not bound yet is taken for one to the end of the room.  What the assembler
remembers of it (`Assembler.Open`) says how its form was chosen, and that its label, wherever it is
bound, is bound behind it.  Every operation that is placed preserves this (`orderly_place`).  So all
open jumps can be filled as long as the code keeps within the room.
-/

namespace TreeCode

open Isa (address)

/-! ## Whole instructions -/

/-- The label that a transfer goes to. -/
def Transfer.label? : Transfer → Option Nat
  | jump label => some label
  | branchIf _ label => some label
  | call _ => none

/-- How far behind the beginning of a transfer its jump or call is. -/
def Transfer.lead (isa : Isa) : Transfer → Nat
  | branchIf .. => isa.conditionBytes
  | _ => 0

namespace Isa

variable {isa : Isa} {base : UInt64} {form : BranchForm} {i : Instr} {bs : List UInt8}

lemma dvd_length_encodeAll (insts : List A64.Inst) : 4 ∣ (A64.encodeAll insts).length := by
  induction insts with
  | nil => exact Nat.dvd_zero 4
  | cons i insts ih =>
    rw [A64.encodeAll, List.flatMap_cons, List.length_append, length_wordBytes]
    exact Nat.dvd_add (Nat.dvd_refl 4) ih

lemma alignment_dvd_emission (i : Instr) : isa.alignment ∣ (isa.emission i).bytes.length := by
  cases isa with
  | x64 => exact Nat.one_dvd _
  | aarch64 =>
    cases hselect : A64.select i with
    | ok insts =>
      simp only [emission, hselect]
      exact dvd_length_encodeAll insts
    | error e =>
      simp only [emission, hselect]
      exact Nat.dvd_zero _

lemma alignment_dvd_conditionBytes : isa.alignment ∣ isa.conditionBytes := by
  cases isa <;> decide

lemma alignment_dvd_jumpBytes (form : BranchForm) : isa.alignment ∣ isa.jumpBytes form := by
  cases isa <;> cases form <;> decide

lemma alignment_dvd_call {place : Nat} {target : UInt64}
    (h : isa.call base form place target = .ok bs) : isa.alignment ∣ bs.length := by
  cases isa with
  | x64 => exact Nat.one_dvd _
  | aarch64 =>
    cases form with
    | direct =>
      obtain ⟨w, -, h⟩ := Except.bind_eq_ok_iff.mp h
      cases h
      exact dvd_length_encodeAll _
    | indirect =>
      cases h
      exact dvd_length_encodeAll _

end Isa

namespace Assembler

variable {a b : Assembler} {limit labels label : Nat} {form : BranchForm} {bs : List UInt8}
  {t : Transfer}

/-! ## What is known of open jumps -/

/-- How a jump is chosen at a place from which its label is not bound yet. -/
def ChoosesOpen (a : Assembler) (limit place : Nat) (form : BranchForm) : Prop :=
  a.base.toNat + place < wordRange ∧
    form = a.isa.branchLimits.form (address a.base limit) (address a.base place)

/-- An open jump is a place where instructions begin, its form is chosen for the end of the room,
and its label is one of the method's and bound behind the jump if it is bound. -/
structure Open (a : Assembler) (limit labels : Nat) (f : Fixup) : Prop where
  aligned : a.isa.alignment ∣ f.place
  reached : f.place ≤ a.offset
  chosen : a.ChoosesOpen limit f.place f.form
  known : f.label < labels
  ahead : ∀ target, a.labelOffset? f.label = some target → f.place ≤ target

/-- Code that consists of whole instructions, has labels at instructions and knows of its jumps. -/
structure Orderly (a : Assembler) (limit labels : Nat) : Prop where
  aligned : a.isa.alignment ∣ a.offset
  bound : ∀ label target, a.labelOffset? label = some target →
    a.isa.alignment ∣ target ∧ target ≤ a.offset
  opened : ∀ f ∈ a.fixups, a.Open limit labels f

lemma orderly_append (h : a.Orderly limit labels) (hbs : a.isa.alignment ∣ bs.length) :
    (a.append bs).Orderly limit labels := by
  have hoffset := offset_append a bs
  refine ⟨?_, fun label target ht => ?_, fun f hf => ?_⟩
  · rw [hoffset]
    exact Nat.dvd_add h.aligned hbs
  · obtain ⟨hdvd, hle⟩ := h.bound label target ht
    exact ⟨hdvd, by omega⟩
  · have hopen := h.opened f hf
    exact ⟨hopen.aligned, by have := hopen.reached; omega, hopen.chosen, hopen.known, hopen.ahead⟩

lemma labelOffset?_bind (h : a.bind label = .ok b) (other : Nat) :
    b.labelOffset? other = if other = label then some a.offset else a.labelOffset? other := by
  unfold bind at h
  split at h
  · cases h
  · cases h
  · rename_i hunbound
    cases h
    by_cases hother : other = label
    · subst hother
      have hlt := (Array.getElem?_eq_some_iff.mp hunbound).1
      simp [labelOffset?, hlt]
    · rw [if_neg hother]
      simp [labelOffset?, Array.getElem?_setIfInBounds_ne (Ne.symm hother)]

lemma same_bind (h : a.bind label = .ok b) :
    b.isa = a.isa ∧ b.base = a.base ∧ b.code = a.code ∧ b.fixups = a.fixups := by
  unfold bind at h
  split at h <;> cases h
  exact ⟨rfl, rfl, rfl, rfl⟩

lemma orderly_bind (h : a.Orderly limit labels) (hbind : a.bind label = .ok b) :
    b.Orderly limit labels := by
  obtain ⟨hisa, hbase, hcode, hfixups⟩ := same_bind hbind
  have hoffset : b.offset = a.offset := by rw [offset, hcode, offset]
  refine ⟨by rw [hisa, hoffset]; exact h.aligned, fun other target ht => ?_, fun f hf => ?_⟩
  · rw [labelOffset?_bind hbind] at ht
    rw [hisa, hoffset]
    by_cases hother : other = label
    · rw [if_pos hother] at ht
      obtain rfl := Option.some.inj ht
      exact ⟨h.aligned, Nat.le_refl _⟩
    · rw [if_neg hother] at ht
      exact h.bound other target ht
  · rw [hfixups] at hf
    have hopen := h.opened f hf
    refine ⟨by rw [hisa]; exact hopen.aligned, by rw [hoffset]; exact hopen.reached,
      by rw [ChoosesOpen, hisa, hbase]; exact hopen.chosen, hopen.known, fun target ht => ?_⟩
    rw [labelOffset?_bind hbind] at ht
    by_cases hlabel : f.label = label
    · rw [if_pos hlabel] at ht
      obtain rfl := Option.some.inj ht
      exact hopen.reached
    · rw [if_neg hlabel] at ht
      exact hopen.ahead target ht

lemma orderly_jump (h : a.Orderly limit labels) (hlabel : label < labels)
    (hform : a.labelOffset? label = none → a.ChoosesOpen limit a.offset form)
    (hjump : a.jump label form = .ok b) : b.Orderly limit labels := by
  unfold jump at hjump
  split at hjump
  · obtain ⟨bs, hbs, hjump⟩ := Except.bind_eq_ok_iff.mp hjump
    cases hjump
    refine orderly_append h ?_
    rw [Isa.length_jump hbs]
    exact Isa.alignment_dvd_jumpBytes form
  · rename_i hunbound
    cases hjump
    have happend : (a.append (a.isa.openJump form)).Orderly limit labels := by
      refine orderly_append h ?_
      rw [Isa.length_openJump]
      exact Isa.alignment_dvd_jumpBytes form
    refine ⟨happend.aligned, happend.bound, fun f hf => ?_⟩
    rcases Array.mem_push.mp hf with hf | rfl
    · have hopen := happend.opened f hf
      exact ⟨hopen.aligned, hopen.reached, hopen.chosen, hopen.known, hopen.ahead⟩
    · refine ⟨h.aligned, ?_, hform hunbound, hlabel, fun target ht => ?_⟩
      · have hoffset : a.offset ≤ (a.append (a.isa.openJump form)).offset := by
          rw [offset_append]
          exact Nat.le_add_right _ _
        exact hoffset
      · have hbound : a.labelOffset? label = some target := ht
        rw [hunbound] at hbound
        cases hbound

lemma size_bind (h : a.bind label = .ok b) : b.labels.size = a.labels.size := by
  unfold bind at h
  split at h <;> cases h
  exact Array.size_setIfInBounds

lemma labels_jump (h : a.jump label form = .ok b) : b.labels = a.labels := by
  unfold jump at h
  split at h
  · obtain ⟨bs, -, h⟩ := Except.bind_eq_ok_iff.mp h
    cases h
    rfl
  · cases h
    rfl

lemma labels_append (a : Assembler) (bs : List UInt8) : (a.append bs).labels = a.labels := rfl

lemma labels_transfer (a : Assembler) (t : Transfer) (form : BranchForm) :
    (a.transfer t form).1.labels = a.labels := by
  cases t with
  | jump label =>
    cases hjump : a.jump label form with
    | ok b => simp only [transfer, hjump, labels_jump hjump]
    | error fault => simp only [transfer, hjump]
  | branchIf c label =>
    cases hjump : (a.append (a.isa.skip c form)).jump label form with
    | ok b => simp only [transfer, hjump, labels_jump hjump, labels_append]
    | error fault => simp only [transfer, hjump, labels_append]
  | call target =>
    cases hcall : a.isa.call a.base form a.offset target with
    | ok bs => simp only [transfer, hcall, Except.map, labels_append]
    | error fault => simp only [transfer, hcall, Except.map]

lemma offset_jump (h : a.jump label form = .ok b) :
    b.offset = a.offset + a.isa.jumpBytes form := by
  unfold jump at h
  split at h
  · obtain ⟨bytes, hbytes, h⟩ := Except.bind_eq_ok_iff.mp h
    cases h
    rw [offset_append, Isa.length_jump hbytes]
  · cases h
    have hopen := offset_append a (a.isa.openJump form)
    rw [Isa.length_openJump] at hopen
    exact hopen

/-- A jump or call that does not fail is behind what leads to it. -/
lemma lead_le_offset_transfer (h : (a.transfer t form).2 = none) :
    a.offset + t.lead a.isa ≤ (a.transfer t form).1.offset := by
  cases t with
  | jump label =>
    cases hjump : a.jump label form with
    | error fault => simp [transfer, hjump] at h
    | ok b =>
      have hoffset := offset_jump hjump
      simp only [transfer, hjump, Transfer.lead]
      omega
  | branchIf c label =>
    cases hjump : (a.append (a.isa.skip c form)).jump label form with
    | error fault => simp [transfer, hjump] at h
    | ok b =>
      have hoffset := offset_jump hjump
      rw [offset_append, Isa.length_skip] at hoffset
      simp only [transfer, hjump, Transfer.lead]
      omega
  | call target =>
    cases hcall : a.isa.call a.base form a.offset target with
    | error fault => simp [transfer, hcall, Except.map] at h
    | ok bytes =>
      simp only [transfer, hcall, Except.map, Transfer.lead, offset_append]
      omega

/-! ## Filling -/

lemma spans_of_open {f : Fixup} {target : Nat} (h : a.Orderly limit labels) (hf : f ∈ a.fixups)
    (hlimit : a.base.toNat + limit < wordRange) (hsize : a.offset ≤ limit)
    (htarget : a.labelOffset? f.label = some target) (hdirect : f.form = .direct) :
    a.isa.Spans f.place target := by
  have hopen := h.opened f hf
  obtain ⟨hdvd, hle⟩ := h.bound f.label target htarget
  obtain ⟨hplace, hform⟩ := hopen.chosen
  rw [hdirect] at hform
  exact Isa.spans_of_form hplace hlimit hform.symm
    (.inr ⟨hopen.ahead target htarget, hle.trans hsize⟩) hopen.aligned hdvd

/-- If all labels are bound, only a direct jump that does not reach keeps code from being
finished. -/
lemma open_of_finish_eq_error {fault : EncodingFault} (h : a.Orderly limit labels)
    (hbound : ∀ label < labels, ∃ target, a.labelOffset? label = some target)
    (hfinish : a.finish = .error fault) :
    ∃ f ∈ a.fixups, ∃ target, f.form = .direct ∧ a.labelOffset? f.label = some target ∧
      ¬ a.isa.Spans f.place target := by
  obtain ⟨before, f, after, code, hsplit, -, hfill⟩ := Except.exists_of_foldlM_eq_error hfinish
  have hf : f ∈ a.fixups := by
    rw [← Array.mem_toList_iff, hsplit]
    exact List.mem_append_right _ List.mem_cons_self
  obtain ⟨target, htarget⟩ := hbound f.label (h.opened f hf).known
  simp only [fill, htarget] at hfill
  split at hfill
  · rename_i hdirect
    refine ⟨f, hf, target, hdirect, htarget, fun hspans => ?_⟩
    obtain ⟨code', hcode'⟩ := Isa.exists_fillDirect hspans code
    rw [hcode'] at hfill
    cases hfill
  · cases hfill

/-- Code whose labels are bound can be finished if it keeps within the room. -/
lemma exists_finish (h : a.Orderly limit labels) (hlimit : a.base.toNat + limit < wordRange)
    (hsize : a.offset ≤ limit)
    (hbound : ∀ label < labels, ∃ target, a.labelOffset? label = some target) :
    ∃ code, a.finish = .ok code := by
  cases hfinish : a.finish with
  | ok code => exact ⟨code, rfl⟩
  | error fault =>
    obtain ⟨f, hf, target, hdirect, htarget, hspans⟩ := open_of_finish_eq_error h hbound hfinish
    exact absurd (spans_of_open h hf hlimit hsize htarget hdirect) hspans

end Assembler

namespace Placement

open Assembler (Orderly ChoosesOpen)

variable {p q : Placement} {limit labels label : Nat} {o : Op} {ops : List Op} {t : Transfer}
  {form : BranchForm}

lemma address_eq_ok_iff {offset : Nat} {x : UInt64} : p.address limit offset = .ok x ↔
    p.asm.base.toNat + offset < wordRange ∧ x = Isa.address p.asm.base offset := by
  unfold Placement.address
  split
  · simp_all [eq_comm]
  · simp_all

/-- The form of a jump is the one for the place where its label is bound, or for the end of the
room. -/
lemma labelForm_eq_ok_iff {lead : Nat} : p.labelForm limit lead label = .ok form ↔
    p.asm.base.toNat + (p.asm.offset + lead) < wordRange ∧
      p.asm.base.toNat + (p.asm.labelOffset? label).getD limit < wordRange ∧
        form = p.asm.isa.branchLimits.form
          (Isa.address p.asm.base ((p.asm.labelOffset? label).getD limit))
          (Isa.address p.asm.base (p.asm.offset + lead)) := by
  simp only [labelForm, Except.bind_eq_ok_iff, address_eq_ok_iff, Except.ok.injEq]
  constructor
  · rintro ⟨_, ⟨hplace, rfl⟩, _, ⟨htarget, rfl⟩, rfl⟩
    exact ⟨hplace, htarget, rfl⟩
  · rintro ⟨hplace, htarget, rfl⟩
    exact ⟨_, ⟨hplace, rfl⟩, _, ⟨htarget, rfl⟩, rfl⟩

lemma form_of_label (hlabel : t.label? = some label) :
    p.form limit t = p.labelForm limit (t.lead p.asm.isa) label := by
  cases t <;> cases hlabel <;> rfl

lemma choosesOpen_of_form (hlabel : t.label? = some label)
    (hunbound : p.asm.labelOffset? label = none) (hform : p.form limit t = .ok form) :
    p.asm.ChoosesOpen limit (p.asm.offset + t.lead p.asm.isa) form := by
  rw [form_of_label hlabel, labelForm_eq_ok_iff, hunbound] at hform
  exact ⟨hform.1, hform.2.2⟩

/-- Placing an operation keeps the code in order. -/
lemma orderly_place (h : p.asm.Orderly limit labels)
    (hlabels : ∀ t label, o = .transfer t → t.label? = some label → label < labels)
    (hplace : p.place limit o = .ok q) : q.asm.Orderly limit labels := by
  obtain ⟨s, hs, hnone, hq⟩ := chooses_of_place hplace
  rw [hq]
  cases hs with
  | @instr i => exact Assembler.orderly_append h (Isa.alignment_dvd_emission i)
  | @bind label =>
    rw [Assembler.step] at hnone ⊢
    split at hnone
    · rename_i hbind
      exact Assembler.orderly_bind h hbind
    · cases hnone
  | @transfer t form hform =>
    cases t with
    | jump label =>
      have hlt := hlabels _ label rfl rfl
      cases hjump : p.asm.jump label form with
      | error fault => simp [Assembler.step, Assembler.transfer, hjump] at hnone
      | ok b =>
        simp only [Assembler.step, Assembler.transfer, hjump]
        exact Assembler.orderly_jump h hlt (choosesOpen_of_form rfl · hform) hjump
    | branchIf c label =>
      have hlt := hlabels _ label rfl rfl
      cases hjump : (p.asm.append (p.asm.isa.skip c form)).jump label form with
      | error fault => simp [Assembler.step, Assembler.transfer, hjump] at hnone
      | ok b =>
        simp only [Assembler.step, Assembler.transfer, hjump]
        have hskip : (p.asm.append (p.asm.isa.skip c form)).Orderly limit labels := by
          refine Assembler.orderly_append h ?_
          rw [Isa.length_skip]
          exact Isa.alignment_dvd_conditionBytes
        refine Assembler.orderly_jump hskip hlt (fun hunbound => ?_) hjump
        rw [Assembler.offset_append, Isa.length_skip]
        exact choosesOpen_of_form rfl hunbound hform
    | call target =>
      cases hcall : p.asm.isa.call p.asm.base form p.asm.offset target with
      | error fault => simp [Assembler.step, Assembler.transfer, hcall, Except.map] at hnone
      | ok bs =>
        simp only [Assembler.step, Assembler.transfer, hcall, Except.map]
        exact Assembler.orderly_append h (Isa.alignment_dvd_call hcall)

lemma orderly_foldlM (h : p.asm.Orderly limit labels)
    (hlabels : ∀ t label, .transfer t ∈ ops → t.label? = some label → label < labels)
    (hops : ops.foldlM (place limit) p = .ok q) : q.asm.Orderly limit labels := by
  induction ops generalizing p with
  | nil =>
    cases hops
    exact h
  | cons o ops ih =>
    rw [List.foldlM_cons] at hops
    obtain ⟨next, hplace, hops⟩ := Except.bind_eq_ok_iff.mp hops
    refine ih (orderly_place h (fun t label ho ht => ?_) hplace)
      (fun t label ht => hlabels t label (List.mem_cons_of_mem _ ht)) hops
    exact hlabels t label (ho ▸ List.mem_cons_self) ht

lemma labelOffset?_start (isa : Isa) (base : UInt64) (labels label : Nat) :
    (start isa base labels).asm.labelOffset? label = none := by
  simp only [start, Assembler.labelOffset?, Array.getElem?_replicate]
  split <;> rfl

lemma orderly_start (isa : Isa) (base : UInt64) (labels : Nat) :
    (start isa base labels).asm.Orderly limit labels := by
  refine ⟨Nat.dvd_zero _, fun label target h => ?_, fun f hf => ?_⟩
  · rw [labelOffset?_start] at h
    cases h
  · exact absurd hf (Array.not_mem_empty f)

/-! ## Labels -/

/-- Only binding a label changes where labels are bound. -/
lemma labels_of_place (h : p.place limit o = .ok q) :
    (∃ label, o = .bind label ∧ p.asm.bind label = .ok q.asm) ∨
      (∀ label, o ≠ .bind label) ∧ q.asm.labels = p.asm.labels := by
  obtain ⟨s, hs, hnone, hq⟩ := chooses_of_place h
  rw [hq]
  cases hs with
  | @instr i => exact .inr ⟨by simp, rfl⟩
  | @bind label =>
    left
    rw [Assembler.step] at hnone ⊢
    cases hbind : p.asm.bind label with
    | ok b => exact ⟨label, rfl, hbind⟩
    | error fault => simp [hbind] at hnone
  | @transfer t form hform =>
    exact .inr ⟨by simp, Assembler.labels_transfer _ t form⟩

/-- The labels that are bound are those of the operations that bind them. -/
lemma labels_of_foldlM {isa : Isa} {base : UInt64}
    (h : ops.foldlM (place limit) (start isa base labels) = .ok p) :
    p.asm.labels.size = labels ∧
      ∀ label, (∃ target, p.asm.labelOffset? label = some target) ↔ .bind label ∈ ops := by
  induction ops using List.reverseRecOn generalizing p with
  | nil =>
    cases h
    refine ⟨Array.size_replicate, fun label => ?_⟩
    simp [labelOffset?_start]
  | append_singleton ops o ih =>
    rw [List.foldlM_append] at h
    obtain ⟨before, hbefore, h⟩ := Except.bind_eq_ok_iff.mp h
    rw [List.foldlM_cons] at h
    obtain ⟨last, hplace, h⟩ := Except.bind_eq_ok_iff.mp h
    obtain rfl := Except.ok.inj h
    obtain ⟨hsize, hbound⟩ := ih hbefore
    rcases labels_of_place hplace with ⟨label, rfl, hbind⟩ | ⟨ho, hlabels⟩
    · refine ⟨(Assembler.size_bind hbind).trans hsize, fun other => ?_⟩
      rw [Assembler.labelOffset?_bind hbind, List.mem_append, List.mem_singleton, ← hbound]
      by_cases hother : other = label
      · simp [hother]
      · simp [hother]
    · refine ⟨by rw [hlabels, hsize], fun other => ?_⟩
      rw [Assembler.labelOffset?, hlabels, ← Assembler.labelOffset?, hbound, List.mem_append,
        List.mem_singleton, or_iff_left (Ne.symm (ho other))]

lemma offset_le_of_place (h : p.place limit o = .ok q) : p.asm.offset ≤ q.asm.offset := by
  obtain ⟨s, hs, hnone, hq⟩ := chooses_of_place h
  rw [hq]
  cases hs with
  | @instr i =>
    have hoffset := Assembler.offset_append p.asm (p.asm.isa.emission i).bytes
    rw [Assembler.step, hoffset]
    exact Nat.le_add_right _ _
  | @bind label =>
    rw [Assembler.step] at hnone ⊢
    cases hbind : p.asm.bind label with
    | error fault => simp [hbind] at hnone
    | ok b =>
      have hcode := (Assembler.same_bind hbind).2.2.1
      rw [Assembler.offset, Assembler.offset, hcode]
  | @transfer t form _ =>
    rw [Assembler.step] at hnone ⊢
    exact Nat.le_of_add_right_le (Assembler.lead_le_offset_transfer hnone)

/-! ## Jumps that are left open -/

/-- A jump whose label is not bound is left open. -/
lemma exists_open_of_place (hlabel : t.label? = some label)
    (hunbound : p.asm.labelOffset? label = none) (h : p.place limit (.transfer t) = .ok q) :
    ∃ form, p.form limit t = .ok form ∧
      ⟨p.asm.offset + t.lead p.asm.isa, label, form⟩ ∈ q.asm.fixups := by
  obtain ⟨form, hform, h⟩ := Except.bind_eq_ok_iff.mp h
  refine ⟨form, hform, ?_⟩
  obtain ⟨-, rfl⟩ := step_eq_ok_iff.mp h
  rw [asm_count]
  have hmem (a : Assembler) (ha : a.labelOffset? label = none) :
      ∃ b, a.jump label form = .ok b ∧ ⟨a.offset, label, form⟩ ∈ b.fixups := by
    refine ⟨_, by rw [Assembler.jump, ha], ?_⟩
    exact Array.mem_push_self
  cases t with
  | jump label' =>
    cases hlabel
    obtain ⟨b, hjump, hb⟩ := hmem p.asm hunbound
    simp only [Assembler.step, Assembler.transfer, hjump]
    exact hb
  | branchIf c label' =>
    cases hlabel
    obtain ⟨b, hjump, hb⟩ := hmem (p.asm.append (p.asm.isa.skip c form)) hunbound
    rw [Assembler.offset_append, Isa.length_skip] at hb
    simp only [Assembler.step, Assembler.transfer, hjump]
    exact hb
  | call target => cases hlabel

/-- Jumps that are left open stay so until the code is finished. -/
lemma mem_fixups_of_foldlM {isa : Isa} {base : UInt64} {before after : List Op}
    (hbefore : before.foldlM (place limit) (start isa base labels) = .ok p)
    (hafter : after.foldlM (place limit) p = .ok q) {f : Fixup} (hf : f ∈ p.asm.fixups) :
    f ∈ q.asm.fixups := by
  obtain ⟨ps, hp, -⟩ := exists_made_of_foldlM (made_start isa base labels) hbefore
  obtain ⟨qs, hq, hextends⟩ := exists_made_of_foldlM hp hafter
  rw [← Array.mem_toList_iff, hp.fixups] at hf
  rw [← Array.mem_toList_iff, hq.fixups, hextends.isa, Piece.fixups_append]
  exact List.mem_append_left _ hf

end Placement

namespace Method

variable {text : String} {m : Method} {cpu : Cpu} {fallback : VectorFallback} {base : UInt64}
  {limit : Nat} {p : Placement} {code : MachineCode}

/-- A method all of whose operations are placed, so that only open jumps have to be filled. -/
structure Placed (m : Method) (cpu : Cpu) (fallback : VectorFallback) (base : UInt64) (limit : Nat)
    (p : Placement) : Prop where
  range : base.toNat + limit < wordRange
  flow : m.checkFlow = .ok ()
  placed : (m.lower cpu fallback).ops.foldlM (Placement.place limit)
    (Placement.start cpu.isa base (m.blocks.length + 1)) = .ok p
  lowered : (m.lower cpu fallback).result = .ok ()

/-- The code of a method is finished from where its operations are placed. -/
lemma codeAt_of_placed (h : m.Placed cpu fallback base limit p) :
    m.codeAt cpu fallback base limit = (p.asm.finish.mapError .encoding).map fun bytes =>
      ⟨cpu.isa, base, bytes, p.direct, p.indirect, (m.lower cpu fallback).scalarized⟩ := by
  have hrange : ¬ wordRange ≤ base.toNat + limit := Nat.not_le.mpr h.range
  rw [codeAt, if_neg hrange, h.flow, Lowering.assemble, h.placed, h.lowered]
  cases hfinish : p.asm.finish <;> simp only [Except.ok_bind, Except.mapError, hfinish] <;> rfl

/-- Code that is made is finished from where the operations are placed. -/
lemma exists_placed_of_codeAt (h : m.codeAt cpu fallback base limit = .ok code) :
    ∃ p, m.Placed cpu fallback base limit p ∧ p.asm.finish = .ok code.bytes ∧ code =
      ⟨cpu.isa, base, code.bytes, p.direct, p.indirect, (m.lower cpu fallback).scalarized⟩ := by
  unfold codeAt at h
  split at h
  · cases h
  · rename_i hrange
    obtain ⟨u, hflow, h⟩ := Except.bind_eq_ok_iff.mp h
    obtain ⟨p, hplaced, h⟩ := Except.bind_eq_ok_iff.mp h
    obtain ⟨v, hresult, h⟩ := Except.bind_eq_ok_iff.mp h
    obtain ⟨bytes, hfinish, h⟩ := Except.bind_eq_ok_iff.mp h
    cases h
    exact ⟨p, ⟨Nat.lt_of_not_le hrange, Except.mapError_eq_ok_iff.mp hflow, hplaced, hresult⟩,
      Except.mapError_eq_ok_iff.mp hfinish, rfl⟩

/-- Code that is finished has as many bytes as have been placed. -/
lemma Placed.size_eq {bytes : Array UInt8} (hp : m.Placed cpu fallback base limit p)
    (hfinish : p.asm.finish = .ok bytes) : bytes.size = p.asm.offset := by
  obtain ⟨ps, hmade, -⟩ := Placement.exists_made_of_foldlM (Placement.made_start _ _ _) hp.placed
  exact Assembler.size_of_finish hmade hfinish

/-- The labels of a method are those of its blocks and that of its end. -/
lemma label_lt_of_lowered (h : m.Lowered cpu fallback) {t : Transfer} {label : Nat}
    (ht : .transfer t ∈ (m.lower cpu fallback).ops) (hlabel : t.label? = some label) :
    label < m.blocks.length + 1 := by
  rcases h.emits _ ht with hemits | ⟨_, hbind⟩
  · cases hemits with
    | jump hle =>
      cases hlabel
      exact Nat.lt_succ_of_le hle
    | branchIf hle =>
      cases hlabel
      exact Nat.lt_succ_of_le hle
    | call hn => cases hlabel
  · cases hbind

lemma count_bind (ops : List Op) (label : Nat) :
    ops.count (.bind label) = (ops.filterMap Op.label?).count label := by
  induction ops with
  | nil => rfl
  | cons o ops ih =>
    cases o with
    | bind other =>
      have hsome : Op.label? (.bind other) = some other := rfl
      rw [List.filterMap_cons_some hsome, List.count_cons, List.count_cons, ih]
      simp
    | instr i =>
      have hnone : Op.label? (.instr i) = none := rfl
      rw [List.filterMap_cons_none hnone, List.count_cons_of_ne (by simp), ih]
    | transfer t =>
      have hnone : Op.label? (.transfer t) = none := rfl
      rw [List.filterMap_cons_none hnone, List.count_cons_of_ne (by simp), ih]

lemma orderly_of_placed (hlowered : m.Lowered cpu fallback)
    (h : m.Placed cpu fallback base limit p) : p.asm.Orderly limit (m.blocks.length + 1) :=
  Placement.orderly_foldlM (Placement.orderly_start _ _ _)
    (fun _ _ ht hlabel => label_lt_of_lowered hlowered ht hlabel) h.placed

/-- Each label of a method that is lowered is bound once. -/
lemma count_bind_of_placed (hlowered : m.Lowered cpu fallback)
    (h : m.Placed cpu fallback base limit p) {label : Nat} (hlabel : label ≤ m.blocks.length) :
    (m.lower cpu fallback).ops.count (.bind label) = 1 := by
  have hbound : (m.lower cpu fallback).ops.filterMap Op.label? = List.range (m.blocks.length + 1) :=
    hlowered.all_bound h.lowered
  rw [count_bind, hbound]
  exact List.count_eq_one_of_mem List.nodup_range (List.mem_range.mpr (Nat.lt_succ_of_le hlabel))

lemma exists_labelOffset_of_placed (hlowered : m.Lowered cpu fallback)
    (h : m.Placed cpu fallback base limit p) {label : Nat} (hlabel : label ≤ m.blocks.length) :
    ∃ target, p.asm.labelOffset? label = some target := by
  rw [(Placement.labels_of_foldlM h.placed).2, ← List.one_le_count_iff,
    count_bind_of_placed hlowered h hlabel]

/-- A jump to a label that is not bound yet is filled in the end: if it is direct, it reaches the
label. -/
lemma spans_of_placed (hlowered : m.Lowered cpu fallback) (hp : m.Placed cpu fallback base limit p)
    (hsize : p.asm.code.size ≤ limit) {before after : List Op} {t : Transfer} {label : Nat}
    {q : Placement} (hops : (m.lower cpu fallback).ops = before ++ .transfer t :: after)
    (hbefore : before.foldlM (Placement.place limit)
      (.start cpu.isa base (m.blocks.length + 1)) = .ok q)
    (hlabel : t.label? = some label) (hunbound : q.asm.labelOffset? label = none) :
    ∃ form, q.form limit t = .ok form ∧
      form = cpu.isa.branchLimits.form (address base limit)
        (address base (q.asm.offset + t.lead cpu.isa)) ∧
      (form = .direct → ∃ target, p.asm.labelOffset? label = some target ∧
        cpu.isa.Spans (q.asm.offset + t.lead cpu.isa) target) := by
  have horderly := orderly_of_placed hlowered hp
  obtain ⟨hisa, hbase⟩ := Placement.extends_of_foldlM hp.placed
  obtain ⟨hisa', hbase'⟩ := Placement.extends_of_foldlM hbefore
  have hplaced := hp.placed
  rw [hops, List.foldlM_append, hbefore, Except.ok_bind, List.foldlM_cons] at hplaced
  obtain ⟨next, hplace, hafter⟩ := Except.bind_eq_ok_iff.mp hplaced
  obtain ⟨form, hform, hopen⟩ := Placement.exists_open_of_place hlabel hunbound hplace
  obtain ⟨-, hchosen⟩ := Placement.choosesOpen_of_form hlabel hunbound hform
  rw [hisa', hbase'] at hchosen
  rw [hisa'] at hopen
  refine ⟨form, hform, hchosen, fun hdirect => ?_⟩
  -- The jump is still open when all operations are placed, and its label is bound by then.
  have hnext : (before ++ [Op.transfer t]).foldlM (Placement.place limit)
      (.start cpu.isa base (m.blocks.length + 1)) = .ok next := by
    rw [List.foldlM_append, hbefore, Except.ok_bind, List.foldlM_cons, hplace]
    rfl
  have hmem := Placement.mem_fixups_of_foldlM hnext hafter hopen
  obtain ⟨target, htarget⟩ := exists_labelOffset_of_placed hlowered hp
    (Nat.le_of_lt_succ (horderly.opened _ hmem).known)
  have hspans := Assembler.spans_of_open horderly hmem (hbase ▸ hp.range) hsize htarget hdirect
  exact ⟨target, htarget, hisa ▸ hspans⟩

/-- **Open jumps are filled.**  Where a method's operations are placed within the room, the code is
finished: the labels of its blocks and of its end are each bound once, and a jump made before its
label is bound, with the form for the end of the room, reaches the label if it is direct. -/
theorem finish_of_parse (h : parse text = .ok m) (hp : m.Placed cpu fallback base limit p)
    (hsize : p.asm.code.size ≤ limit) :
    (∃ bytes, p.asm.finish = .ok bytes ∧ m.codeAt cpu fallback base limit =
      .ok ⟨cpu.isa, base, bytes, p.direct, p.indirect, (m.lower cpu fallback).scalarized⟩) ∧
    (∀ label ≤ m.blocks.length, (m.lower cpu fallback).ops.count (.bind label) = 1 ∧
      ∃ target ≤ p.asm.code.size, p.asm.labelOffset? label = some target) ∧
    ∀ before t after label q, (m.lower cpu fallback).ops = before ++ .transfer t :: after →
      before.foldlM (Placement.place limit) (.start cpu.isa base (m.blocks.length + 1)) = .ok q →
      t.label? = some label → q.asm.labelOffset? label = none →
        ∃ form, q.form limit t = .ok form ∧
          form = cpu.isa.branchLimits.form (address base limit)
            (address base (q.asm.offset + t.lead cpu.isa)) ∧
          (form = .direct → ∃ target, p.asm.labelOffset? label = some target ∧
            cpu.isa.Spans (q.asm.offset + t.lead cpu.isa) target) := by
  obtain ⟨e, -, hm⟩ := Except.bind_eq_ok_iff.mp h
  have hlowered : m.Lowered cpu fallback := lowered_of_ofExpr hm
  have horderly := orderly_of_placed hlowered hp
  have hrange : p.asm.base.toNat + limit < wordRange := by
    rw [(Placement.extends_of_foldlM hp.placed).2]
    exact hp.range
  refine ⟨?_, fun label hlabel => ?_,
    fun before t after label q => spans_of_placed hlowered hp hsize⟩
  · obtain ⟨bytes, hbytes⟩ := Assembler.exists_finish horderly hrange hsize fun label hlt =>
      exists_labelOffset_of_placed hlowered hp (Nat.le_of_lt_succ hlt)
    refine ⟨bytes, hbytes, ?_⟩
    rw [codeAt_of_placed hp, hbytes]
    rfl
  · obtain ⟨target, htarget⟩ := exists_labelOffset_of_placed hlowered hp hlabel
    exact ⟨count_bind_of_placed hlowered hp hlabel, target, (horderly.bound _ _ htarget).2, htarget⟩

/-- A method that branches forward. -/
def forkText : String :=
  "(method return=Int32 args=[Int32] " ++
    "(block (ificmplt target=low (iload parm=0) (iconst 3)) (ireturn (iconst 1))) " ++
    "(block name=low (ireturn (iconst 2))))"

/-- The method of the text `forkText`. -/
def fork : Method :=
  ⟨none, .int32, [.int32], [
    ⟨none, [.node (.ifcmp .lt) .int32 (.target 1)
        [.node .load .int32 (.parm 0) [], .node .const .int32 (.int 3) []],
      .node .ret .int32 .none [.node .const .int32 (.int 1) []]]⟩,
    ⟨some "low", [.node .ret .int32 .none [.node .const .int32 (.int 2) []]]⟩]⟩

set_option maxRecDepth 2000 in
lemma parse_forkText : parse forkText = .ok fork := by
  cbv

/-- The branch forward and the jump to the end are filled. -/
theorem finish_of_parse_forkText :
    ∃ p bytes, parse forkText = .ok fork ∧
      fork.Placed (.baseline .aarch64) .fail 0x10000 4096 p ∧ p.asm.fixups.size = 2 ∧
        p.asm.code.size ≤ 4096 ∧ p.asm.finish = .ok bytes := by
  have hplaced : ∃ p, fork.Placed (.baseline .aarch64) .fail 0x10000 4096 p ∧
      p.asm.fixups.size = 2 ∧ p.asm.code.size ≤ 4096 :=
    ⟨_, ⟨by decide, rfl, rfl, rfl⟩, rfl, by decide⟩
  obtain ⟨p, hp, hfixups, hsize⟩ := hplaced
  obtain ⟨bytes, hbytes, -⟩ := (finish_of_parse parse_forkText hp hsize).1
  exact ⟨p, bytes, parse_forkText, hp, hfixups, hsize, hbytes⟩

end Method

end TreeCode
