import Mathlib.Tactic.Common
import TreeCode.Region

/-!
# The life of a region

A region goes through any sequence of writes and seals, some of which are refused.  What one of them
can do to it is said once (`Region.Answers`).  What all later states keep of a region
(`Region.Keeps`) follows from there, and so does that at most one write ever stores code in it
(`Region.stored_after`).
-/

namespace TreeCode

namespace Region

/-! ## Actions -/

/-- What can be done with a region. -/
inductive Action where
  | write (code : Array UInt8)
  | makeExecutable

variable {r r' r'' : Region} {a : Action} {actions : List Action}

/-- Does an action.  A region that refuses it stays what it was. -/
def act (r : Region) : Action → Except RegionError Unit × Region
  | .write code =>
    match r.write code with
    | .ok written => (.ok (), written)
    | .error e => (.error e, r)
  | .makeExecutable => (.ok (), r.makeExecutable)

/-- The region after some actions. -/
def after (r : Region) (actions : List Action) : Region :=
  actions.foldl (fun r a => (r.act a).2) r

/-- The code that an action stores: that of a write which is not refused, if there is any. -/
def Action.stores : Action → Except RegionError Unit → List (Array UInt8)
  | .write code, .ok () => if code.isEmpty then [] else [code]
  | _, _ => []

/-- All the code that some actions store, one piece for each write that stores any. -/
def stored (r : Region) : List Action → List (Array UInt8)
  | [] => []
  | a :: actions => a.stores (r.act a).1 ++ (r.act a).2.stored actions

/-- What an action answers and what it leaves behind.  A write is refused by a region that is sealed
or holds code, then if the code is too long; otherwise the code is put at the beginning. -/
inductive Answers (r : Region) : Action → Except RegionError Unit × Region → Prop where
  | occupied {code : Array UInt8} (h : r.executable = true ∨ 0 < r.size) :
      Answers r (.write code) (.error .occupied, r)
  | tooLong {code : Array UInt8} (unsealed : r.executable = false) (empty : r.size = 0)
      (h : r.capacity < code.size) :
      Answers r (.write code) (.error (.tooLong code.size r.capacity), r)
  | written {code : Array UInt8} (unsealed : r.executable = false) (empty : r.size = 0)
      (h : code.size ≤ r.capacity) : Answers r (.write code) (.ok (), { r with code := code })
  | sealed : Answers r .makeExecutable (.ok (), { r with executable := true })

lemma answers_act (r : Region) (a : Action) : r.Answers a (r.act a) := by
  cases a with
  | makeExecutable => exact .sealed
  | write code =>
    rw [act, write]
    by_cases hheld : r.executable = true ∨ 0 < r.size
    · have hrefused : (r.executable || !r.isEmpty) = true := by
        rcases hheld with hsealed | hsize
        · simp [hsealed]
        · simp only [size, Array.size_pos_iff] at hsize
          simp [isEmpty, hsize]
      simp only [if_pos hrefused]
      exact .occupied hheld
    · obtain ⟨hsealed, hsize⟩ := not_or.mp hheld
      have hunsealed : r.executable = false := by simpa using hsealed
      have hempty : r.size = 0 := Nat.eq_zero_of_not_pos hsize
      have hfree : ¬ (r.executable || !r.isEmpty) = true := by
        simpa [hunsealed, isEmpty, size] using hempty
      by_cases hlong : r.capacity < code.size
      · simp only [if_neg hfree, if_pos hlong]
        exact .tooLong hunsealed hempty hlong
      · simp only [if_neg hfree, if_neg hlong]
        exact .written hunsealed hempty (Nat.le_of_not_lt hlong)

/-! ## What is kept -/

/-- What a later state of a region has kept: its size, that it is sealed, and, once it is sealed or
holds code, the code. -/
structure Keeps (r r' : Region) : Prop where
  capacity : r'.capacity = r.capacity
  executable : r.executable = true → r'.executable = true
  code : r.executable = true ∨ 0 < r.size → r'.code = r.code

lemma Keeps.refl (r : Region) : r.Keeps r := ⟨rfl, id, fun _ => rfl⟩

lemma Keeps.trans (h : r.Keeps r') (h' : r'.Keeps r'') : r.Keeps r'' where
  capacity := h'.capacity.trans h.capacity
  executable hsealed := h'.executable (h.executable hsealed)
  code hheld := by
    have hcode := h.code hheld
    refine (h'.code ?_).trans hcode
    rcases hheld with hsealed | hsize
    · exact .inl (h.executable hsealed)
    · right
      rwa [size, hcode]

lemma keeps_act (r : Region) (a : Action) : r.Keeps (r.act a).2 := by
  have hanswers := answers_act r a
  generalize r.act a = answer at hanswers ⊢
  cases hanswers with
  | occupied => exact .refl r
  | tooLong => exact .refl r
  | written hunsealed hempty =>
    refine ⟨rfl, id, ?_⟩
    rintro (hsealed | hsize)
    · rw [hunsealed] at hsealed
      cases hsealed
    · omega
  | sealed => exact ⟨rfl, fun _ => rfl, fun _ => rfl⟩

lemma keeps_after (r : Region) (actions : List Action) : r.Keeps (r.after actions) := by
  induction actions generalizing r with
  | nil => exact .refl r
  | cons a actions ih => exact (keeps_act r a).trans (ih _)

/-- Code never gets longer than its region. -/
lemma size_le_after (h : r.size ≤ r.capacity) :
    (r.after actions).size ≤ (r.after actions).capacity := by
  induction actions generalizing r with
  | nil => exact h
  | cons a actions ih =>
    have hstep : (r.act a).2.size ≤ (r.act a).2.capacity := by
      have hanswers := answers_act r a
      generalize r.act a = answer at hanswers ⊢
      cases hanswers with
      | written _ _ hle => exact hle
      | _ => exact h
    exact ih hstep

/-! ## Storing once -/

lemma stores_act_eq_nil (h : r.executable = true ∨ 0 < r.size) (a : Action) :
    a.stores (r.act a).1 = [] := by
  have hanswers := answers_act r a
  generalize r.act a = answer at hanswers ⊢
  cases hanswers with
  | written hunsealed hempty =>
    rcases h with hsealed | hsize
    · rw [hunsealed] at hsealed
      cases hsealed
    · omega
  | _ => rfl

/-- Nothing is stored in a region that is sealed or holds code. -/
lemma stored_eq_nil (h : r.executable = true ∨ 0 < r.size) : r.stored actions = [] := by
  induction actions generalizing r with
  | nil => rfl
  | cons a actions ih =>
    rw [stored, stores_act_eq_nil h, List.nil_append]
    refine ih ?_
    have hkeeps := keeps_act r a
    rcases h with hsealed | hsize
    · exact .inl (hkeeps.executable hsealed)
    · right
      rwa [size, hkeeps.code (.inr hsize)]

/-- **A region stores code at most once**, and holds what was stored. -/
theorem stored_after (h : r.size = 0) :
    (r.stored actions).length ≤ 1 ∧ (r.after actions).code = (r.stored actions).headD #[] := by
  induction actions generalizing r with
  | nil => exact ⟨Nat.zero_le 1, Array.size_eq_zero_iff.mp h⟩
  | cons a actions ih =>
    have hanswers := answers_act r a
    rw [stored]
    show _ ∧ ((r.act a).2.after actions).code = _
    generalize r.act a = answer at hanswers ⊢
    cases hanswers with
    | @written code _ _ _ =>
      by_cases hempty : code.isEmpty = true
      · -- an empty write leaves a region that may still be written
        have hnone : (Action.write code).stores (.ok ()) = [] := if_pos hempty
        rw [hnone, List.nil_append]
        exact ih (by simpa [size] using hempty)
      · have hsome : (Action.write code).stores (.ok ()) = [code] := if_neg hempty
        have hsize : 0 < size { r with code := code } := by
          simpa [size, Array.size_pos_iff] using hempty
        have hcode := (keeps_after { r with code := code } actions).code (.inr hsize)
        rw [hsome, stored_eq_nil (.inr hsize), List.append_nil]
        exact ⟨Nat.le_refl 1, hcode⟩
    | _ => exact ih h

/-! ## Lives -/

/-- The life of a region that was reserved for `size` bytes in pages of `page` bytes: the code
stored so far is listed in `stored`, the region is `r` now and `r'` at some later time. -/
structure Lives (page size : Nat) (stored : List (Array UInt8)) (r r' : Region) : Prop where
  capacity_pos : 0 < r.capacity
  page_dvd : page ∣ r.capacity
  size_le : size ≤ r.capacity
  capacity_eq : r'.capacity = r.capacity
  fits : r.size ≤ r.capacity
  /-- How writes and seals are answered. -/
  answers : ∀ a, r.Answers a (r.act a)
  /-- What is refused changes nothing. -/
  refused : ∀ a e, (r.act a).1 = .error e → (r.act a).2 = r
  stored_once : stored.length ≤ 1
  code_eq : r.code = stored.headD #[]
  executable : r.executable = true → r'.executable = true
  /-- A region that is sealed or holds code never changes again, byte by byte. -/
  bytes : r.executable = true ∨ 0 < r.size → r'.size = r.size ∧ ∀ i, r'.byte i = r.byte i
  /-- Sealing twice is sealing once. -/
  sealed : (r.act .makeExecutable).2.act .makeExecutable = (.ok (), (r.act .makeExecutable).2)

lemma pageSize_pos (reported : Int) : 0 < pageSize reported := by
  rw [pageSize]
  split
  · omega
  · decide

lemma max_le_capacity_reserveIn {page : Nat} (hpage : 0 < page) (size : Nat) :
    max size 1 ≤ (reserveIn page size).capacity := by
  have hlt : max size 1 + page - 1 < (max size 1 + page - 1) / page * page + page :=
    Nat.lt_div_mul_add hpage
  show max size 1 ≤ (max size 1 + page - 1) / page * page
  omega

lemma le_capacity_reserve (size : Nat) : size ≤ (reserve size).capacity :=
  Nat.le_trans (Nat.le_max_left size 1) (max_le_capacity_reserveIn (pageSize_pos 4096) size)

/-- **Regions are written once and then sealed**, whatever is tried in whatever order, and whatever
the system reports for the size of its pages. -/
theorem lives_reserveIn (reported : Int) (size : Nat) (before later : List Action) :
    Lives (pageSize reported) size ((reserveIn (pageSize reported) size).stored before)
      ((reserveIn (pageSize reported) size).after before)
      (((reserveIn (pageSize reported) size).after before).after later) := by
  have hreserved := max_le_capacity_reserveIn (pageSize_pos reported) size
  generalize hr : reserveIn (pageSize reported) size = r at hreserved ⊢
  have hempty : r.size = 0 := by rw [← hr, reserveIn, Region.size, Array.size_empty]
  have hpages : pageSize reported ∣ r.capacity := by
    rw [← hr, reserveIn]
    exact Nat.dvd_mul_left _ _
  have hbefore := keeps_after r before
  have hlater := keeps_after (r.after before) later
  obtain ⟨honce, hcode⟩ := @stored_after r before hempty
  have hfits : r.size ≤ r.capacity := hempty.symm ▸ Nat.zero_le _
  refine ⟨?_, ?_, ?_, hlater.capacity, size_le_after hfits, answers_act _, ?_, honce, hcode,
    hlater.executable, ?_, rfl⟩
  · rw [hbefore.capacity]
    omega
  · rw [hbefore.capacity]
    exact hpages
  · rw [hbefore.capacity]
    omega
  · intro a e he
    have hanswers := answers_act (r.after before) a
    generalize (r.after before).act a = answer at hanswers he ⊢
    cases hanswers with
    | written => cases he
    | sealed => cases he
    | _ => rfl
  · intro hheld
    have hsame := hlater.code hheld
    refine ⟨by rw [Region.size, hsame, Region.size], fun i => ?_⟩
    rw [byte, hsame, byte]

example : ((reserve 1).after [.write #[], .write #[0xc3], .write #[0x90], .makeExecutable,
    .write #[0x90]]) = ⟨4096, #[0xc3], true⟩ := by decide

end Region

end TreeCode
