import Mathlib.Data.List.Forall2
import Mathlib.Tactic.Common
import TreeCode.Convention
import TreeCode.Proofs.Outcome
import TreeCode.Proofs.WellTyped

/-!
# Arguments and their registers

Registers are given out in order, so no two arguments get the same one, and there are no more
arguments than registers.
-/

namespace TreeCode

namespace Convention

variable {c : Convention} {u : Used} {type : DataType} {types : List DataType}
  {arguments : List Argument} {a : Argument}

/-- How many registers of a bank have been given out. -/
def Used.count (u : Used) : Bank → Nat
  | .general => u.general
  | .vector => u.vector

/-- How many argument registers a bank has. -/
def count (c : Convention) : Bank → Nat
  | .general => c.general
  | .vector => c.vector

/-- A register that is given out is the next one of the bank for the type. -/
lemma assign_spec {u' : Used} (h : c.assign u type = (some a, u'))
    (hu : ∀ bank, u.count bank ≤ c.count bank) :
    (type.isScalar ∧ a.bank = Bank.ofType type) ∧ a.index = u.count a.bank ∧
      (∀ bank, u'.count bank = u.count bank + if bank = a.bank then 1 else 0) ∧
      ∀ bank, u'.count bank ≤ c.count bank := by
  unfold assign at h
  have htype (hb : bank? type = some a.bank) : type.isScalar ∧ a.bank = Bank.ofType type := by
    cases type <;> simp_all [bank?, DataType.isIntegral, DataType.isFloating, DataType.isScalar,
      Bank.ofType]
  split at h
  · rename_i hbank
    split at h
    · rename_i hlt
      obtain ⟨ha, rfl⟩ := Prod.mk.inj h
      obtain rfl := Option.some.inj ha
      refine ⟨htype hbank, rfl, fun bank => by cases bank <;> rfl, fun bank => ?_⟩
      cases bank with
      | general => exact hlt
      | vector => exact hu .vector
    · simp at h
  · rename_i hbank
    split at h
    · rename_i hlt
      obtain ⟨ha, rfl⟩ := Prod.mk.inj h
      obtain rfl := Option.some.inj ha
      refine ⟨htype hbank, rfl, fun bank => by cases bank <;> rfl, fun bank => ?_⟩
      cases bank with
      | general => exact hu .general
      | vector => exact hlt
    · simp at h
  · simp at h

/-- What is given out from some registers on. -/
lemma assignEach_spec (h : (c.assignEach u types).mapM id = some arguments)
    (hu : ∀ bank, u.count bank ≤ c.count bank) :
    List.Forall₂ (fun type a => type.isScalar ∧ a.bank = Bank.ofType type) types arguments ∧
      (∀ a ∈ arguments, u.count a.bank ≤ a.index) ∧ arguments.Nodup ∧
      arguments.length + u.general + u.vector ≤ c.general + c.vector := by
  induction types generalizing u arguments with
  | nil =>
    obtain rfl : [] = arguments := by simpa [assignEach] using h
    refine ⟨.nil, by simp, by simp, ?_⟩
    have hgeneral := hu .general
    have hvector := hu .vector
    simp only [Used.count, count] at hgeneral hvector
    simp only [List.length_nil]
    omega
  | cons type types ih =>
    obtain ⟨answer, u', hassign⟩ : ∃ answer u', c.assign u type = (answer, u') := ⟨_, _, rfl⟩
    rw [assignEach, hassign, List.mapM_cons] at h
    obtain ⟨a, rfl, htail⟩ := Option.bind_eq_some_iff.mp h
    obtain ⟨rest, hrest, hall⟩ := Option.bind_eq_some_iff.mp htail
    obtain rfl := Option.some.inj hall
    obtain ⟨htype, hindex, hcount, hu'⟩ := assign_spec hassign hu
    obtain ⟨htypes, hge, hnodup, hlength⟩ := ih hrest hu'
    refine ⟨.cons htype htypes, ?_, ?_, ?_⟩
    · rw [List.forall_mem_cons]
      refine ⟨Nat.le_of_eq hindex.symm, fun b hb => Nat.le_trans ?_ (hge b hb)⟩
      rw [hcount]
      omega
    · refine List.nodup_cons.mpr ⟨fun hmem => ?_, hnodup⟩
      have hle := hge a hmem
      rw [hcount, if_pos rfl] at hle
      omega
    · have hgeneral := hcount .general
      have hvector := hcount .vector
      simp only [Used.count] at hgeneral hvector
      rw [List.length_cons]
      cases hbank : a.bank <;> simp [hbank] at hgeneral hvector <;> omega

/-- A register that is given out is one of its bank. -/
lemma index_lt_of_assignEach (h : (c.assignEach u types).mapM id = some arguments)
    (hu : ∀ bank, u.count bank ≤ c.count bank) : ∀ a ∈ arguments, a.index < c.count a.bank := by
  induction types generalizing u arguments with
  | nil =>
    obtain rfl : [] = arguments := by simpa [assignEach] using h
    simp
  | cons type types ih =>
    obtain ⟨answer, u', hassign⟩ : ∃ answer u', c.assign u type = (answer, u') := ⟨_, _, rfl⟩
    rw [assignEach, hassign, List.mapM_cons] at h
    obtain ⟨a, rfl, htail⟩ := Option.bind_eq_some_iff.mp h
    obtain ⟨rest, hrest, hall⟩ := Option.bind_eq_some_iff.mp htail
    obtain rfl := Option.some.inj hall
    obtain ⟨-, hindex, hcount, hu'⟩ := assign_spec hassign hu
    rw [List.forall_mem_cons]
    refine ⟨?_, ih hrest hu'⟩
    have hnext := hu' a.bank
    rw [hcount, if_pos rfl] at hnext
    omega

/-- Arguments get different registers, each of the bank for its type. -/
lemma assignAll_spec (h : c.assignAll types = some arguments) :
    List.Forall₂ (fun type a => type.isScalar ∧ a.bank = Bank.ofType type) types arguments ∧
      arguments.Nodup ∧ arguments.length ≤ c.general + c.vector := by
  obtain ⟨htypes, -, hnodup, hlength⟩ := assignEach_spec h (by rintro (_ | _) <;> simp [Used.count])
  exact ⟨htypes, hnodup, by simpa using hlength⟩

lemma index_lt_of_assignAll (h : c.assignAll types = some arguments) :
    ∀ a ∈ arguments, a.index < c.count a.bank :=
  index_lt_of_assignEach h (by rintro (_ | _) <;> simp [Used.count])

end Convention

/-- There are at most sixteen argument registers. -/
lemma Isa.convention_le (isa : Isa) : isa.convention.general + isa.convention.vector ≤ 16 := by
  cases isa <;> decide

/-- No more values than there are argument registers get one. -/
lemma Isa.length_le_of_assignAll {isa : Isa} {types : List DataType} {arguments : List Argument}
    (h : isa.convention.assignAll types = some arguments) : types.length ≤ 16 := by
  obtain ⟨htypes, -, hlength⟩ := Convention.assignAll_spec h
  rw [htypes.length_eq]
  exact Nat.le_trans hlength isa.convention_le

end TreeCode
