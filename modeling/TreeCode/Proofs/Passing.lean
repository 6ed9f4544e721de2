import Mathlib.Data.List.Nodup
import TreeCode.Proofs.Encodable

/-!
# Arguments go by position

What register an argument gets depends only on how many of the arguments before it are passed in the
same bank: it is the one with that index, as long as the bank has it (`place?`).  Everything else
about the assignment follows (`Isa.assignsByPosition`): when a whole signature is accepted, that no
register of the hardware is given out twice, and that the banks do not disturb each other.
-/

namespace TreeCode

namespace Convention

variable {c : Convention} {u : Used} {type : DataType} {types before : List DataType} {bank : Bank}

/-- How many of some types are passed in a bank. -/
def passedIn (bank : Bank) (types : List DataType) : Nat :=
  types.countP fun type => bank? type = some bank

/-- The register for a type behind others: the one of its bank whose index is the number of those
that are passed there, if there is such a register. -/
def place? (c : Convention) (before : List DataType) (type : DataType) : Option Argument :=
  match bank? type with
  | some bank =>
    if passedIn bank before < c.count bank then some ⟨bank, passedIn bank before⟩ else none
  | none => none

/-- The answers for the types that are passed in a bank. -/
def answersIn (c : Convention) (u : Used) (bank : Bank) (types : List DataType) :
    List (Option Argument) :=
  ((types.zip (c.assignEach u types)).filter fun p => bank? p.1 = some bank).map Prod.snd

/-! ## One argument -/

/-- One register more of a bank has been given out. -/
def Used.give (u : Used) : Bank → Used
  | .general => ⟨u.general + 1, u.vector⟩
  | .vector => ⟨u.general, u.vector + 1⟩

@[simp] lemma Used.count_give (u : Used) (given bank : Bank) :
    (u.give given).count bank = u.count bank + if given = bank then 1 else 0 := by
  cases given <;> cases bank <;> rfl

/-- The banks are treated alike. -/
lemma assign_eq : c.assign u type =
    match bank? type with
    | some bank =>
      if u.count bank < c.count bank then (some ⟨bank, u.count bank⟩, u.give bank) else (none, u)
    | none => (none, u) := by
  unfold assign
  cases bank? type with
  | none => rfl
  | some bank => cases bank <;> rfl

/-- A refusal changes nothing. -/
lemma assign_of_refused (h : (c.assign u type).1 = none) : (c.assign u type).2 = u := by
  rw [assign_eq] at h ⊢
  cases hbank : bank? type with
  | none => rfl
  | some bank =>
    simp only [hbank] at h ⊢
    split at h
    · cases h
    · rename_i hfull
      rw [if_neg hfull]

lemma isScalar_iff_bank? : type.isScalar ↔ (bank? type).isSome := by
  cases type <;> simp [bank?, DataType.isScalar, DataType.isIntegral, DataType.isFloating]

/-! ## One argument after the other -/

@[simp] lemma passedIn_nil : passedIn bank [] = 0 := rfl

@[simp] lemma passedIn_cons : passedIn bank (type :: types) =
    passedIn bank types + if bank? type = some bank then 1 else 0 := by
  simp [passedIn, List.countP_cons]

@[simp] lemma passedIn_append : passedIn bank (before ++ types) =
    passedIn bank before + passedIn bank types := List.countP_append

lemma passedIn_eq_length : passedIn bank types =
    (types.filter fun type => bank? type = some bank).length := List.countP_eq_length_filter

/-- Behind a type there is one more in its bank. -/
lemma passedIn_take_lt {i j : Nat} (hij : i < j) (htype : types[i]? = some type)
    (hbank : bank? type = some bank) :
    passedIn bank (types.take i) < passedIn bank (types.take j) := by
  have hnext : passedIn bank (types.take (i + 1)) = passedIn bank (types.take i) + 1 := by
    rw [List.take_add_one, htype, passedIn_append]
    simp [hbank]
  have hle : passedIn bank (types.take (i + 1)) ≤ passedIn bank (types.take j) :=
    (List.take_sublist_take_left hij).countP_le
  omega

/-- As many registers have been given out as types have been passed in each bank, or all of
them. -/
def Used.Behind (c : Convention) (before : List DataType) (u : Used) : Prop :=
  ∀ bank, u.count bank = min (passedIn bank before) (c.count bank)

lemma behind_nil : Used.Behind c [] ⟨0, 0⟩ := by
  rintro (_ | _) <;> simp [Used.count]

lemma Used.Behind.snoc {u' : Used} {given : Bank} (h : u.Behind c before)
    (hbank : bank? type = some given)
    (hgiven : u'.count given = min (passedIn given before + 1) (c.count given))
    (hothers : ∀ bank, given ≠ bank → u'.count bank = u.count bank) :
    u'.Behind c (before ++ [type]) := by
  intro bank
  rw [passedIn_append, passedIn_cons, passedIn_nil, hbank]
  by_cases hsame : given = bank
  · subst hsame
    simpa using hgiven
  · simpa [hsame] using (hothers bank hsame).trans (h bank)

/-- What one type is given, and what is left behind it. -/
lemma assign_of_behind (h : u.Behind c before) (type : DataType) :
    (c.assign u type).1 = c.place? before type ∧
      (c.assign u type).2.Behind c (before ++ [type]) := by
  rw [assign_eq, place?]
  cases hbank : bank? type with
  | none => exact ⟨rfl, fun bank => by simpa [hbank] using h bank⟩
  | some given =>
    have hgiven := h given
    by_cases hroom : passedIn given before < c.count given
    · have hcount : u.count given = passedIn given before := by omega
      simp only [hcount, if_pos hroom]
      refine ⟨trivial, h.snoc hbank ?_ fun bank hother => ?_⟩
      · rw [Used.count_give, if_pos rfl]
        omega
      · rw [Used.count_give, if_neg hother, Nat.add_zero]
    · -- the bank has been full since the last register was given out
      have hfull : ¬u.count given < c.count given := by omega
      simp only [if_neg hroom, if_neg hfull]
      exact ⟨trivial, h.snoc hbank (by omega) fun _ _ => rfl⟩

/-- Every type is given its place. -/
lemma getElem?_assignEach (h : u.Behind c before) (i : Nat) :
    (c.assignEach u types)[i]? =
      types[i]?.map fun type => c.place? (before ++ types.take i) type := by
  induction types generalizing u before i with
  | nil => simp [assignEach]
  | cons type types ih =>
    obtain ⟨hanswer, hbehind⟩ := assign_of_behind h type
    cases i with
    | zero => simp [assignEach, hanswer]
    | succ i => simpa [assignEach] using ih hbehind i

/-- The answers in a bank count up from the registers that are given out, as long as there are
any. -/
lemma answersIn_eq (h : u.Behind c before) : c.answersIn u bank types =
    (List.range' (passedIn bank before) (passedIn bank types)).map fun index =>
      if index < c.count bank then some ⟨bank, index⟩ else none := by
  induction types generalizing u before with
  | nil => rfl
  | cons type types ih =>
    obtain ⟨hanswer, hbehind⟩ := assign_of_behind h type
    have hrest := ih hbehind
    unfold answersIn at hrest ⊢
    rw [assignEach, List.zip_cons_cons, List.filter_cons]
    by_cases hbank : bank? type = some bank
    · simp only [passedIn_append, passedIn_cons, passedIn_nil, hbank, if_true] at hrest
      simp only [hbank, decide_true, if_true, List.map_cons, hanswer, hrest, place?, passedIn_cons]
      rw [Nat.add_comm (passedIn bank types) 1, Nat.add_comm 1, List.range'_succ, List.map_cons]
    · simp only [passedIn_append, passedIn_cons, passedIn_nil, hbank, if_false] at hrest
      simpa [hbank] using hrest

/-- No type is refused if and only if each has a bank and the banks have room for them. -/
lemma forall_isSome_assignEach (h : ∀ bank, u.count bank ≤ c.count bank) :
    (∀ answer ∈ c.assignEach u types, answer.isSome) ↔
      (∀ type ∈ types, type.isScalar) ∧
        ∀ bank, u.count bank + passedIn bank types ≤ c.count bank := by
  induction types generalizing u with
  | nil => simp [assignEach, h]
  | cons type types ih =>
    rw [assignEach, List.forall_mem_cons, List.forall_mem_cons, isScalar_iff_bank?, assign_eq]
    cases hbank : bank? type with
    | none => simp
    | some given =>
      by_cases hroom : u.count given < c.count given
      · have hgiven (bank : Bank) : (u.give given).count bank ≤ c.count bank := by
          have hle := h bank
          rw [Used.count_give]
          split
          · rename_i hsame
            subst hsame
            exact hroom
          · exact hle
        simp only [if_pos hroom, ih hgiven, Used.count_give, passedIn_cons, hbank,
          Option.isSome_some, true_and, Option.some.injEq]
        refine and_congr_right fun _ => forall_congr' fun bank => ?_
        rw [Nat.add_assoc, Nat.add_comm (passedIn bank types)]
      · simp only [if_neg hroom, Option.isSome_none, Bool.false_eq_true, false_and, false_iff,
          not_and, not_forall]
        intro _
        refine ⟨given, ?_⟩
        rw [passedIn_cons, if_pos hbank]
        omega

/-- A whole signature is accepted if no type of it is refused. -/
lemma isSome_mapM_id {α : Type} {answers : List (Option α)} :
    (answers.mapM id).isSome ↔ ∀ answer ∈ answers, answer.isSome := by
  induction answers with
  | nil => simp
  | cons answer answers ih =>
    cases answer <;> cases hrest : answers.mapM id <;> simp_all [List.mapM_cons]

lemma place?_eq_some_iff {a : Argument} : c.place? before type = some a ↔
    bank? type = some a.bank ∧ a.index = passedIn a.bank before ∧ a.index < c.count a.bank := by
  obtain ⟨bank, index⟩ := a
  rw [place?]
  cases bank? type with
  | none => simp
  | some given =>
    simp only [Option.ite_none_right_eq_some, Option.some.injEq, Argument.mk.injEq]
    constructor
    · rintro ⟨hroom, rfl, rfl⟩
      exact ⟨rfl, rfl, hroom⟩
    · rintro ⟨rfl, rfl, hroom⟩
      exact ⟨hroom, rfl, rfl⟩

/-- A register that is given out is the place of the type that gets it. -/
lemma place_of_assignEach {i : Nat} {a : Argument}
    (h : (c.assignEach ⟨0, 0⟩ types)[i]? = some (some a)) :
    (∃ type, types[i]? = some type ∧ bank? type = some a.bank) ∧
      a.index = passedIn a.bank (types.take i) ∧ a.index < c.count a.bank := by
  rw [getElem?_assignEach behind_nil, Option.map_eq_some_iff] at h
  obtain ⟨type, htype, hplace⟩ := h
  obtain ⟨hbank, hindex⟩ := place?_eq_some_iff.mp hplace
  exact ⟨⟨type, htype, hbank⟩, hindex⟩

/-- The later one of two types is not given the register of the earlier one. -/
lemma ne_of_assignEach {i j : Nat} {a b : Argument} (hij : i < j)
    (ha : (c.assignEach ⟨0, 0⟩ types)[i]? = some (some a))
    (hb : (c.assignEach ⟨0, 0⟩ types)[j]? = some (some b)) : a ≠ b := by
  rintro rfl
  obtain ⟨⟨type, htype, hbank⟩, hi, -⟩ := place_of_assignEach ha
  obtain ⟨-, hj, -⟩ := place_of_assignEach hb
  have hlt := passedIn_take_lt hij htype hbank
  omega

end Convention

/-! ## Registers of the hardware -/

/-- The register of the hardware that passes an argument: its bank and its number there. -/
def Isa.passing? (isa : Isa) (a : Argument) : Option (Bank × Nat) :=
  match isa with
  | x64 => (X64.locateArgument a).toOption.map fun l => (l.bank, l.number.val)
  | aarch64 =>
    (A64.argumentRegister (.whole a.bank) a).toOption.map fun number => (a.bank, number.val)

lemma X64.nodup_generalArguments : generalArguments.Nodup := by
  decide

/-- Every argument register of a convention is one of the hardware. -/
lemma Isa.exists_passing? {isa : Isa} {a : Argument} (h : a.index < isa.convention.count a.bank) :
    ∃ number, isa.passing? a = some (a.bank, number) := by
  cases isa with
  | x64 =>
    obtain ⟨l, hl, hbank⟩ := X64.exists_locateArgument h
    exact ⟨l.number.val, by simp [passing?, hl, Except.toOption, hbank]⟩
  | aarch64 =>
    obtain ⟨number, hnumber⟩ := A64.exists_argumentRegister (Access.bank_whole a.bank) h
    exact ⟨number.val, by simp [passing?, hnumber, Except.toOption]⟩

/-- Different argument registers are different ones of the hardware. -/
lemma Isa.passing?_inj {isa : Isa} {a b : Argument} (ha : a.index < isa.convention.count a.bank)
    (hb : b.index < isa.convention.count b.bank) (h : isa.passing? a = isa.passing? b) : a = b := by
  obtain ⟨n, hn⟩ := exists_passing? ha
  obtain ⟨m, hm⟩ := exists_passing? hb
  have hbank : a.bank = b.bank := (Prod.mk.inj (Option.some.inj (hn.symm.trans (h.trans hm)))).1
  obtain ⟨bank, index⟩ := a
  obtain ⟨bank', index'⟩ := b
  obtain rfl : bank = bank' := hbank
  cases isa with
  | x64 =>
    cases bank with
    | general =>
      -- these registers are not numbered in order, but none is listed twice
      have hlength : index < X64.generalArguments.length ∧ index' < X64.generalArguments.length :=
        ⟨ha, hb⟩
      simp only [passing?, X64.locateArgument, List.getElem?_eq_getElem hlength.1,
        List.getElem?_eq_getElem hlength.2, Except.toOption, Option.map_some, Option.some.injEq,
        Prod.mk.injEq, true_and, Fin.val_inj] at h
      rw [(List.Nodup.getElem_inj_iff X64.nodup_generalArguments).mp h]
    | vector =>
      have hlt : index < X64.vectorArguments ∧ index' < X64.vectorArguments := ⟨ha, hb⟩
      simpa [passing?, X64.locateArgument, hlt, Except.toOption] using h
  | aarch64 =>
    have hlt : index < A64.argumentRegisters ∧ index' < A64.argumentRegisters := by
      cases bank <;> exact ⟨ha, hb⟩
    simpa [passing?, A64.argumentRegister, hlt, Access.bank_whole, Except.toOption] using h

/-! ## The assignment -/

/-- How a convention assigns registers to some types, one after the other.  The numbers of
registers are those of the instruction set, and `Convention.place?` says where a type goes. -/
structure Isa.AssignsByPosition (isa : Isa) (types : List DataType) : Prop where
  /-- There are six or eight registers for integers and addresses, and eight for floating point
  numbers. -/
  count_eq : isa.convention.count .general = (if isa = .x64 then 6 else 8) ∧
    isa.convention.count .vector = 8
  /-- Integers and addresses are passed in one bank, floating point numbers in the other, and
  nothing else in any. -/
  bank_iff : ∀ type,
    (Convention.bank? type = some .general ↔ type ∈ [.int8, .int16, .int32, .int64, .address]) ∧
      (Convention.bank? type = some .vector ↔ type ∈ [.float, .double])
  /-- Each type is answered with its place behind those before it, refused ones or not. -/
  answers : ∀ i, (isa.convention.assignEach ⟨0, 0⟩ types)[i]? =
    types[i]?.map fun type => isa.convention.place? (types.take i) type
  /-- Whatever has been given out, a refusal gives out nothing. -/
  refused : ∀ u type, (isa.convention.assign u type).1 = none → (isa.convention.assign u type).2 = u
  /-- All types together get registers if and only if they are scalar and fit into the banks. -/
  accepted : (isa.convention.assignAll types).isSome ↔ (∀ type ∈ types, type.isScalar) ∧
    ∀ bank, Convention.passedIn bank types ≤ isa.convention.count bank
  /-- The index of an argument is the number of those before it in its bank. -/
  index_eq : ∀ arguments, isa.convention.assignAll types = some arguments →
    arguments.length = types.length ∧ ∀ (i : Nat) (a : Argument), arguments[i]? = some a →
      ∃ type, types[i]? = some type ∧ Convention.bank? type = some a.bank ∧
        a.index = Convention.passedIn a.bank (types.take i)
  /-- Two types that get registers get different registers of the hardware. -/
  apart : ∀ (i j : Nat) (a b : Argument), i ≠ j →
    (isa.convention.assignEach ⟨0, 0⟩ types)[i]? = some (some a) →
    (isa.convention.assignEach ⟨0, 0⟩ types)[j]? = some (some b) →
      ∃ r s, isa.passing? a = some r ∧ isa.passing? b = some s ∧ r ≠ s
  /-- What the types of a bank get does not depend on those of the other one or between which of
  them they stand. -/
  interleaved : ∀ types' bank,
    (types'.filter fun type => Convention.bank? type = some bank) =
      (types.filter fun type => Convention.bank? type = some bank) →
    isa.convention.answersIn ⟨0, 0⟩ bank types' = isa.convention.answersIn ⟨0, 0⟩ bank types

/-- **Arguments are assigned by position, each bank for itself.** -/
theorem Isa.assignsByPosition (isa : Isa) (types : List DataType) :
    isa.AssignsByPosition types where
  count_eq := by cases isa <;> exact ⟨rfl, rfl⟩
  bank_iff type := by
    cases type <;> simp [Convention.bank?, DataType.isIntegral, DataType.isFloating]
  answers i := Convention.getElem?_assignEach Convention.behind_nil i
  refused _ _ := Convention.assign_of_refused
  accepted := by
    have hstart (bank : Bank) : Convention.Used.count ⟨0, 0⟩ bank ≤ isa.convention.count bank := by
      cases bank <;> exact Nat.zero_le _
    have hzero (bank : Bank) : Convention.Used.count ⟨0, 0⟩ bank = 0 := by cases bank <;> rfl
    rw [Convention.assignAll, Convention.isSome_mapM_id, Convention.forall_isSome_assignEach hstart]
    simp only [hzero, Nat.zero_add]
  index_eq arguments h := by
    refine ⟨(Convention.assignAll_spec h).1.length_eq.symm, fun i a ha => ?_⟩
    obtain ⟨answer, hanswer, rfl⟩ :=
      exists_getElem?_of_forall₂ (Option.mapM_eq_some_iff.mp h).flip ha
    obtain ⟨⟨type, htype, hbank⟩, hindex, -⟩ := Convention.place_of_assignEach hanswer
    exact ⟨type, htype, hbank, hindex⟩
  apart i j a b hij ha hb := by
    obtain ⟨-, -, haroom⟩ := Convention.place_of_assignEach ha
    obtain ⟨-, -, hbroom⟩ := Convention.place_of_assignEach hb
    obtain ⟨n, hn⟩ := Isa.exists_passing? haroom
    obtain ⟨m, hm⟩ := Isa.exists_passing? hbroom
    refine ⟨_, _, hn, hm, fun hsame => ?_⟩
    have heq : a = b :=
      Isa.passing?_inj haroom hbroom (hn.trans ((congrArg some hsame).trans hm.symm))
    rcases Nat.lt_or_gt_of_ne hij with hlt | hlt
    · exact Convention.ne_of_assignEach hlt ha hb heq
    · exact Convention.ne_of_assignEach hlt hb ha heq.symm
  interleaved types' bank h := by
    have hcount : Convention.passedIn bank types' = Convention.passedIn bank types := by
      rw [Convention.passedIn_eq_length, Convention.passedIn_eq_length, h]
    rw [Convention.answersIn_eq Convention.behind_nil,
      Convention.answersIn_eq Convention.behind_nil, hcount]

/-- A seventh integer is refused, and a floating point number behind it is not. -/
example : (Isa.x64.convention.assignEach ⟨0, 0⟩ (List.replicate 7 .int32 ++ [.double])).drop 6 =
    [none, some ⟨.vector, 0⟩] := by decide

end TreeCode
