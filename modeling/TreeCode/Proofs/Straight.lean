import Mathlib.Tactic.Common
import TreeCode.Proofs.Machine

/-!
# Straight code

Operations after which control goes on to the next one are run one after the other, without regard
to where they stand.  `Machine.Runs` compares such code with evaluation: both are stuck, or both
come to an end in the same world.
-/

namespace TreeCode

/-- Whether control goes on to the next operation, if it comes back at all. -/
def Op.isStraight : Op → Bool
  | .instr .epilogue => false
  | .instr _ | .transfer (.call _) => true
  | _ => false

/-- Straight code with what is agreed on at its calls. -/
structure Straight (ops : List Op) (sites : List CallSite) : Prop where
  straight : ∀ o ∈ ops, o.isStraight
  calls : ops.countP Op.isCall = sites.length

namespace Straight

variable {o₁ o₂ : List Op} {s₁ s₂ : List CallSite}

lemma nil : Straight [] [] := ⟨by simp, rfl⟩

lemma append (h₁ : Straight o₁ s₁) (h₂ : Straight o₂ s₂) : Straight (o₁ ++ o₂) (s₁ ++ s₂) := by
  refine ⟨?_, ?_⟩
  · simpa [or_imp, forall_and] using ⟨h₁.straight, h₂.straight⟩
  · rw [List.countP_append, List.length_append, h₁.calls, h₂.calls]

/-- Instructions make no calls. -/
lemma instrs {ops : List Op} (h : ∀ o ∈ ops, ∃ i, o = .instr i ∧ i ≠ .epilogue) :
    Straight ops [] := by
  refine ⟨fun o ho => ?_, ?_⟩
  · obtain ⟨i, rfl, hi⟩ := h o ho
    cases i <;> first | rfl | exact (hi rfl).elim
  · rw [List.countP_eq_zero.mpr, List.length_nil]
    intro o ho
    obtain ⟨i, rfl, -⟩ := h o ho
    simp [Op.isCall]

lemma instr {i : Instr} (h : i ≠ .epilogue) : Straight [.instr i] [] :=
  instrs (by simpa using h)

lemma call (site : CallSite) (target : UInt64) : Straight [.transfer (.call target)] [site] :=
  ⟨by simp [Op.isStraight], rfl⟩

lemma cons_instr {i : Instr} (hi : i ≠ .epilogue) (h : Straight o₁ s₁) :
    Straight (.instr i :: o₁) s₁ := (instr hi).append h

lemma cons_call (site : CallSite) (target : UInt64) (h : Straight o₁ s₁) :
    Straight (.transfer (.call target) :: o₁) (site :: s₁) := (call site target).append h

end Straight

namespace Evaluation

variable {α β : Type}

@[simp] lemma pure_apply (a : α) (w : World) : (pure a : Evaluation α) w = some (a, w) := rfl

@[simp] lemma failure_apply (w : World) : (failure : Evaluation α) w = none := rfl

@[simp] lemma bind_apply (x : Evaluation α) (f : α → Evaluation β) (w : World) :
    (x >>= f) w = (x w).bind fun r => f r.1 r.2 := rfl

@[simp] lemma ofOption_some_bind (a : α) (f : α → Evaluation β) : ofOption (some a) >>= f = f a :=
  rfl

@[simp] lemma ofOption_apply (o : Option α) (w : World) :
    ofOption o w = o.map fun a => (a, w) := rfl

end Evaluation

namespace Setting

lemma loadFrom_apply (type : DataType) (address : UInt64) (w : World) :
    loadFrom type address w =
      ((w.memory.read? address (Access.ofType type).bytes).bind (Access.ofType type).decode?).map
        fun d => (d, w) := by
  change ((w.memory.read? address (Access.ofType type).bytes).map fun bytes => (bytes, w)).bind _ =
    _
  cases w.memory.read? address (Access.ofType type).bytes <;> rfl

lemma storeTo_apply (type : DataType) (address : UInt64) (d : Datum) (w : World) :
    storeTo type address d w =
      (((Access.ofType type).encode? d).bind (w.memory.write? address)).map
        fun memory => ((), { w with memory := memory }) := by
  change (((Access.ofType type).encode? d).map fun bytes => (bytes, w)).bind _ = _
  cases (Access.ofType type).encode? d with
  | none => rfl
  | some bytes =>
    change ((w.memory.write? address bytes).map fun memory => (memory, w)).bind _ = _
    rw [Option.bind_some]
    cases w.memory.write? address bytes <;> rfl

lemma call_apply (s : Setting) (target : UInt64) (arguments : List Datum) (w : World) :
    s.call target arguments w = (s.outside w ⟨target, arguments⟩).map
      fun r => (r.1, ⟨r.2, ⟨target, arguments⟩ :: w.calls⟩) := by
  change ((s.outside w ⟨target, arguments⟩).map fun r => (r, w)).bind _ = _
  cases s.outside w ⟨target, arguments⟩ <;> rfl

end Setting

namespace Machine

/-- Runs straight code. -/
def exec (M : Machine) : List Op → List CallSite → State → Option State
  | [], _, σ => some σ
  | .instr i :: ops, sites, σ => (M.perform σ i).bind (exec M ops sites)
  | .transfer (.call target) :: ops, site :: sites, σ =>
    (M.call σ site target).bind (exec M ops sites)
  | _, _, _ => none

variable {M : Machine} {σ σ' : State} {o₁ o₂ ops : List Op} {s₁ s₂ sites : List CallSite}

lemma exec_append (h : Straight o₁ s₁) (o₂ : List Op) (s₂ : List CallSite) (σ : State) :
    M.exec (o₁ ++ o₂) (s₁ ++ s₂) σ = (M.exec o₁ s₁ σ).bind (M.exec o₂ s₂) := by
  obtain ⟨hstraight, hcalls⟩ := h
  induction o₁ generalizing s₁ σ with
  | nil =>
    obtain rfl : s₁ = [] := by simpa using hcalls.symm
    rfl
  | cons o o₁ ih =>
    rw [List.forall_mem_cons] at hstraight
    rw [List.countP_cons] at hcalls
    match o, s₁ with
    | .instr i, s₁ =>
      simp only [List.cons_append, exec, Option.bind_assoc]
      refine congrArg _ (funext fun σ' => ih σ' hstraight.2 ?_)
      simpa [Op.isCall] using hcalls
    | .transfer (.call target), site :: s₁ =>
      simp only [List.cons_append, exec, Option.bind_assoc]
      refine congrArg _ (funext fun σ' => ih σ' hstraight.2 ?_)
      simpa [Op.isCall] using hcalls
    | .transfer (.call target), [] => simp [Op.isCall] at hcalls
    | .transfer (.jump label), s₁ => simp [Op.isStraight] at hstraight
    | .transfer (.branchIf c label), s₁ => simp [Op.isStraight] at hstraight
    | .bind label, s₁ => simp [Op.isStraight] at hstraight

/-! ## Straight code in a program -/

lemma run_add {P : Program} (n k : Nat) (c : Config) :
    M.run P (n + k) c = (M.run P n c).bind (M.run P k) := by
  induction n generalizing c with
  | zero => simp [run]
  | succ n ih =>
    rw [Nat.succ_add]
    cases c with
    | running pc σ =>
      simp only [run, Option.bind_assoc]
      exact congrArg _ (funext ih)
    | returned σ =>
      cases k <;> simp [run]

/-- Straight code at a place of a program runs as it does by itself. -/
lemma run_straight {P : Program} {front back : List Op} {s₀ s₂ : List CallSite}
    (hops : P.ops = front ++ (ops ++ back)) (hsites : P.sites = s₀ ++ (sites ++ s₂))
    (hfront : front.countP Op.isCall = s₀.length) (h : Straight ops sites) (σ : State) :
    M.run P ops.length (.running front.length σ) =
      (M.exec ops sites σ).map (.running (front.length + ops.length)) := by
  obtain ⟨hstraight, hcalls⟩ := h
  induction ops generalizing front s₀ sites σ with
  | nil => rfl
  | cons o ops ih =>
    have hhere : P.ops[front.length]? = some o := by simp [hops]
    have htake : P.ops.take front.length = front := by simp [hops]
    have hops' : P.ops = (front ++ [o]) ++ (ops ++ back) := by simp [hops]
    rw [List.forall_mem_cons] at hstraight
    rw [List.countP_cons] at hcalls
    have hnext {s₀' sites'} (hsites : P.sites = s₀' ++ (sites' ++ s₂))
        (hfront : (front ++ [o]).countP Op.isCall = s₀'.length)
        (hcalls : ops.countP Op.isCall = sites'.length) (σ' : State) :
        M.run P ops.length (.running (front.length + 1) σ') =
          (M.exec ops sites' σ').map (.running (front.length + 1 + ops.length)) := by
      simpa using ih hops' hsites hfront σ' hstraight.2 hcalls
    rw [List.length_cons, run, step, hhere, ← Nat.add_assoc, Nat.add_right_comm]
    match o, sites with
    | .instr i, sites =>
      have hi : i ≠ .epilogue := by
        rintro rfl
        simp [Op.isStraight] at hstraight
      have hrest := hnext hsites (by simpa [Op.isCall] using hfront)
        (by simpa [Op.isCall] using hcalls)
      simp [exec, Option.map_bind, Option.bind_map, Function.comp_def, hrest]
    | .transfer (.call target), site :: sites =>
      have hsite : P.site? front.length = some site := by
        simp [Program.site?, htake, hfront, hsites]
      have hsites' : P.sites = (s₀ ++ [site]) ++ (sites ++ s₂) := by simp [hsites]
      have hrest := hnext hsites' (by simpa [Op.isCall] using hfront)
        (by simpa [Op.isCall] using hcalls)
      simp [exec, hsite, Option.map_bind, Option.bind_map, Function.comp_def, hrest]
    | .transfer (.call target), [] => simp [Op.isCall] at hcalls
    | .transfer (.jump label), sites => simp [Op.isStraight] at hstraight
    | .transfer (.branchIf c label), sites => simp [Op.isStraight] at hstraight
    | .bind label, sites => simp [Op.isStraight] at hstraight

/-! ## Straight code and evaluation -/

variable {α β : Type} {R : α → State → Prop} {Q : β → State → Prop}

/-- The ends of an evaluation and of code are of one world, or there is neither. -/
inductive Agree (R : α → State → Prop) : Option (α × World) → Option State → Prop
  | stuck : Agree R none none
  | done {a : α} {σ : State} (related : R a σ) : Agree R (some (a, σ.world)) (some σ)

/-- Straight code does from a state on what an evaluation does. -/
def Runs (M : Machine) (σ : State) (ops : List Op) (sites : List CallSite) (ev : Evaluation α)
    (R : α → State → Prop) : Prop :=
  Agree R (ev σ.world) (M.exec ops sites σ)

namespace Runs

lemma pure {a : α} (h : R a σ) : M.Runs σ [] [] (Pure.pure a) R := .done h

/-- One instruction, if neither it nor the evaluation is stuck. -/
lemma instr {ev : Evaluation α} {i : Instr} {a : α} (hi : M.perform σ i = some σ')
    (hev : ev σ.world = some (a, σ'.world)) (h : R a σ') : M.Runs σ [.instr i] [] ev R := by
  simpa [Runs, exec, hi, hev] using Agree.done h

/-- One instruction and an evaluation that both are stuck. -/
lemma instr_stuck {ev : Evaluation α} {i : Instr} (hi : M.perform σ i = none)
    (hev : ev σ.world = none) : M.Runs σ [.instr i] [] ev R := by
  simpa [Runs, exec, hi, hev] using Agree.stuck

lemma mono {ev : Evaluation α} {R' : α → State → Prop} (h : M.Runs σ ops sites ev R)
    (himp : ∀ a σ', R a σ' → R' a σ') : M.Runs σ ops sites ev R' := by
  unfold Runs at h ⊢
  generalize ev σ.world = r at h ⊢
  generalize M.exec ops sites σ = after at h ⊢
  cases h with
  | stuck => exact .stuck
  | done hR => exact .done (himp _ _ hR)

/-- Code does what an evaluation does whose value is then changed. -/
lemma map {x : Evaluation α} {g : α → β} (hx : M.Runs σ ops sites x R)
    (himp : ∀ a σ', R a σ' → Q (g a) σ') :
    M.Runs σ ops sites (x >>= fun a => Pure.pure (g a)) Q := by
  unfold Runs at hx ⊢
  rw [Evaluation.bind_apply]
  generalize x σ.world = r at hx ⊢
  generalize M.exec ops sites σ = after at hx ⊢
  cases hx with
  | stuck => exact .stuck
  | done hR => exact .done (himp _ _ hR)

/-- Code after code does one evaluation after another. -/
lemma bind {x : Evaluation α} {f : α → Evaluation β} (hstraight : Straight o₁ s₁)
    (hx : M.Runs σ o₁ s₁ x R) (hf : ∀ a σ', R a σ' → M.Runs σ' o₂ s₂ (f a) Q) :
    M.Runs σ (o₁ ++ o₂) (s₁ ++ s₂) (x >>= f) Q := by
  unfold Runs at hx ⊢
  rw [exec_append hstraight, Evaluation.bind_apply]
  generalize x σ.world = r at hx ⊢
  generalize M.exec o₁ s₁ σ = after at hx ⊢
  cases hx with
  | stuck => exact .stuck
  | done hR => exact hf _ _ hR

/-- Code before which the machine does something that evaluation does not see. -/
lemma of_exec {ev : Evaluation α} (hstraight : Straight o₁ []) (hexec : M.exec o₁ [] σ = some σ')
    (hworld : σ'.world = σ.world) (h : M.Runs σ' o₂ sites ev R) :
    M.Runs σ (o₁ ++ o₂) sites ev R := by
  unfold Runs at h ⊢
  rw [← List.nil_append sites, exec_append hstraight, hexec, ← hworld]
  exact h

lemma of_instr {ev : Evaluation α} {i : Instr} (hi : M.perform σ i = some σ')
    (hworld : σ'.world = σ.world) (h : M.Runs σ' ops sites ev R) :
    M.Runs σ (.instr i :: ops) sites ev R := by
  unfold Runs at h ⊢
  rw [exec, hi, ← hworld]
  exact h

end Runs

end Machine

end TreeCode
