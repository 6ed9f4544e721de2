import Mathlib.Tactic.Common
import TreeCode.Loading
import TreeCode.Proofs.Emitted
import TreeCode.Proofs.Lifecycle
import TreeCode.Proofs.Placing

/-!
# Loading ends

Loading tries one region after another until the code fits or there is no larger region to try.
How it goes is said here without a bound on the number of attempts (`Method.Loads`).  It ends
because the room that an attempt leaves to the code is larger than the room of the one before, and
never larger than the most that code may take.
-/

namespace TreeCode

/-! ## Errors of making code -/

/-- The error comes of making code, and not of finding room for it. -/
def CodeError.OfMaking : CodeError → Prop
  | .codeTooLarge _ _ | .foreignIsa _ _ | .region _ => False
  | _ => True

namespace Lowering

/-- Lowering that ends with an error does so because no code can be made. -/
abbrev Makes {α : Type} (x : Lowering α) : Prop :=
  x.Meets (fun _ => True) (fun _ => True) CodeError.OfMaking

variable {α β : Type}

lemma makes_pure {a : α} : (Pure.pure a : Lowering α).Makes := meets_pure trivial

lemma makes_fail {e : CodeError} (h : e.OfMaking) : (fail e : Lowering α).Makes := meets_fail h

lemma makes_instr {i : Instr} : (instr i).Makes := meets_instr trivial

lemma makes_op {o : Op} : (op o).Makes := meets_op trivial

lemma makes_unsupported {op : Opcode} {type : DataType} {o : Obstacle} :
    (Plan.unsupported op type o : Lowering α).Makes := makes_fail trivial

lemma Makes.bind {x : Lowering α} {f : α → Lowering β} (hx : x.Makes) (hf : ∀ a, (f a).Makes) :
    (x >>= f).Makes := Meets.bind hx fun a _ => hf a

lemma makes_forM {l : List α} {f : α → Lowering Unit} (h : ∀ a, (f a).Makes) :
    (l.forM f).Makes := meets_forM fun a _ => h a

end Lowering

namespace Plan

open Lowering hiding pure bind fail op instr

variable {p : Plan} {type : DataType} {depth : Nat} {held : List Reg} {level : Nat}

lemma makes_register : (p.register type depth).Makes := by
  unfold register
  dsimp only
  split
  · exact makes_pure
  · exact makes_fail trivial

lemma makes_beginCall {imm : Immediate} {types : List DataType} :
    (p.beginCall type imm types depth).Makes := by
  unfold beginCall
  split
  · split
    · exact makes_unsupported
    · dsimp only
      split
      · exact makes_pure.bind fun _ => makes_pure
      · exact (makes_register.bind fun _ => makes_pure).bind fun _ => makes_pure
  · exact makes_unsupported

lemma makes_endCall {c : PendingCall} : (p.endCall held level c).Makes := by
  unfold endCall
  refine (makes_forM fun _ => makes_instr).bind fun _ => (makes_forM fun _ => makes_instr).bind
    fun _ => makes_op.bind fun _ => ?_
  cases c.result with
  | none => exact (makes_forM fun _ => makes_instr).bind fun _ => makes_pure
  | some r =>
    exact makes_instr.bind fun _ => (makes_forM fun _ => makes_instr).bind fun _ => makes_pure

lemma makes_lane {op : VectorOp} {l : Lane} {lhs rhs : Reg} {offset : Nat} :
    (p.lane op l lhs rhs offset).Makes := by
  unfold lane
  refine makes_instr.bind fun _ => makes_instr.bind fun _ => ?_
  split
  · exact makes_instr.bind fun _ => makes_instr
  · split
    · exact makes_instr.bind fun _ => makes_instr
    · exact Makes.bind (makes_fail trivial) fun _ => makes_instr

lemma makes_combineVectors {op : VectorOp} {l : Lane} {rhs : Nat} :
    (p.combineVectors op l depth rhs).Makes := by
  have hcount : countScalarized.Makes := meets_of_ok rfl (by simp [countScalarized]) trivial
  unfold combineVectors
  split
  · exact makes_instr
  · exact hcount.bind fun _ => makes_instr.bind fun _ => makes_instr.bind fun _ =>
      makes_register.bind fun _ => makes_register.bind fun _ =>
        (makes_forM fun _ => makes_lane).bind fun _ => makes_instr

lemma makes_checkVector {op : VectorOp} {l : Lane} : (p.checkVector op l).Makes := by
  rw [checkVector_eq]
  exact (meets_ensure fun _ => trivial).weaken fun _ _ => trivial

lemma makes_rotateLeft {wide : Bool} {dst count : Nat} :
    (p.rotateLeft wide dst count).Makes := by
  unfold rotateLeft
  split
  · exact makes_instr
  · exact makes_instr.bind fun _ => makes_instr

lemma makes_constant {imm : Immediate} : (constant type depth imm).Makes := by
  unfold constant
  split
  · exact makes_instr
  · split <;> exact makes_instr
  · exact makes_unsupported

mutual

/-- Evaluating a tree ends with an error only because no code can be made of it. -/
lemma makes_eval : ∀ (held : List Reg) (level depth : Nat) (n : Node),
    (p.eval held level depth n).Makes
  | held, level, depth, .node op type imm children => by
    have hfirst := makes_evalFirst held level depth children
    have hpair := makes_evalPair held level depth children
    by_cases hop : op = .call
    · rw [eval, if_pos hop]
      refine makes_beginCall.bind fun c => (makes_evalArguments held level depth 0 children).bind
        fun _ => makes_endCall.bind fun r => ?_
      cases r with
      | none => exact makes_unsupported
      | some r => exact makes_pure
    · obtain ⟨own, hown, heval⟩ := p.exists_own held level depth type imm children hop
      rw [heval]
      refine makes_register.bind fun _ => Makes.bind ?_ fun _ => makes_pure
      cases hown with
      | load => exact makes_instr
      | const => exact makes_constant
      | loadIndirect | neg | sqrt => exact hfirst.bind fun _ => makes_instr
      | rol => exact hpair.bind fun _ => makes_rotateLeft
      | vector => exact makes_checkVector.bind fun _ => hpair.bind fun _ => makes_combineVectors
      | floating | integer => exact hpair.bind fun _ => makes_instr
      | noParameter | noValue => exact makes_unsupported

lemma makes_evalFirst : ∀ (held : List Reg) (level depth : Nat) (ns : List Node),
    (p.evalFirst held level depth ns).Makes
  | _, _, _, [] => by
    rw [evalFirst]
    exact makes_fail trivial
  | held, level, depth, a :: _ => by
    rw [evalFirst]
    exact makes_eval held level depth a

lemma makes_evalPair : ∀ (held : List Reg) (level depth : Nat) (ns : List Node),
    (p.evalPair held level depth ns).Makes
  | _, _, _, [] => by
    rw [evalPair]
    · exact makes_fail trivial
    · nofun
  | _, _, _, [_] => by
    rw [evalPair]
    · exact makes_fail trivial
    · nofun
  | held, level, depth, a :: b :: _ => by
    rw [evalPair]
    exact (makes_eval held level depth a).bind fun lhs =>
      (makes_eval (held ++ [lhs]) level (depth + 1) b).bind fun _ => makes_pure

lemma makes_evalArguments : ∀ (held : List Reg) (level depth j : Nat) (ns : List Node),
    (p.evalArguments held level depth j ns).Makes
  | _, _, _, _, [] => by
    rw [evalArguments]
    exact makes_pure
  | held, level, depth, j, n :: ns => by
    rw [evalArguments]
    exact (makes_eval held (level + 1) depth n).bind fun _ => makes_instr.bind fun _ =>
      makes_evalArguments held level depth (j + 1) ns

end

end Plan

namespace Method

variable {m : Method} {cpu : Cpu} {options : Options} {addresses : Placements}

/-- The most bytes of code in a region that is reserved for `size` bytes. -/
def room (options : Options) (size : Nat) : Nat := codeLimit options (.reserve size)

/-- The code of an attempt, for the address of its region and the room that is there. -/
def codeFor (m : Method) (cpu : Cpu) (options : Options) (addresses : Placements)
    (attempt size : Nat) : Except CodeError MachineCode :=
  m.codeAt cpu options.fallback (addresses attempt) (room options size)

/-- Loading from an attempt on, which reserves `size` bytes: what is reserved in this attempt and
the ones behind it, and what comes out. -/
inductive Loads (m : Method) (cpu : Cpu) (options : Options) (addresses : Placements) :
    (attempt size : Nat) → List Nat → Except CodeError Loaded → Prop
  | fits {attempt size : Nat} {code : MachineCode}
      (made : m.codeFor cpu options addresses attempt size = .ok code)
      (le : code.bytes.size ≤ room options size) :
      Loads m cpu options addresses attempt size [size]
        (.ok ⟨m, code, ⟨(Region.reserve size).capacity, code.bytes, true⟩⟩)
  | fails {attempt size : Nat} {e : CodeError}
      (made : m.codeFor cpu options addresses attempt size = .error e) :
      Loads m cpu options addresses attempt size [size] (.error e)
  | exceeds {attempt size : Nat} {code : MachineCode}
      (made : m.codeFor cpu options addresses attempt size = .ok code)
      (lt : room options size < code.bytes.size)
      (largest : options.maxCodeSize ≤ room options size) :
      Loads m cpu options addresses attempt size [size]
        (.error (.codeTooLarge code.bytes.size options.maxCodeSize))
  | grows {attempt size : Nat} {code : MachineCode} {sizes : List Nat}
      {outcome : Except CodeError Loaded}
      (made : m.codeFor cpu options addresses attempt size = .ok code)
      (lt : room options size < code.bytes.size)
      (smaller : room options size < options.maxCodeSize)
      (rest : Loads m cpu options addresses (attempt + 1)
        (min (code.bytes.size * 2) options.maxCodeSize) sizes outcome) :
      Loads m cpu options addresses attempt size (size :: sizes) outcome

lemma room_le (options : Options) (size : Nat) : room options size ≤ options.maxCodeSize :=
  Nat.min_le_right _ _

/-- The next attempt has more room. -/
lemma room_lt {size n : Nat} (hsmaller : room options size < options.maxCodeSize)
    (hlt : room options size < n) :
    room options size < room options (min (n * 2) options.maxCodeSize) := by
  have hcapacity := Region.le_capacity_reserve (min (n * 2) options.maxCodeSize)
  rw [room, codeLimit] at hsmaller hlt ⊢
  rw [room, codeLimit]
  omega

/-- A new region does not refuse code that keeps within the room. -/
lemma write_reserve {size : Nat} {code : Array UInt8} (h : code.size ≤ room options size) :
    (Region.reserve size).write code = .ok ⟨(Region.reserve size).capacity, code, false⟩ := by
  have hcapacity : ¬ (Region.reserve size).capacity < code.size :=
    Nat.not_lt.mpr (Nat.le_trans h (Nat.min_le_left _ _))
  rw [Region.write, if_neg (by simp [Region.reserve, Region.reserveIn, Region.isEmpty]), if_neg hcapacity]
  rfl

/-- What is tried in an attempt: code that keeps within the room is put into the region. -/
lemma tryLoad_eq (size attempt : Nat) :
    m.tryLoad cpu options (.reserve size) (addresses attempt) =
      (m.codeFor cpu options addresses attempt size).map fun code =>
        if room options size < code.bytes.size then .tooLarge code.bytes.size
        else .loaded ⟨m, code, ⟨(Region.reserve size).capacity, code.bytes, true⟩⟩ := by
  have hlimit : codeLimit options (.reserve size) = room options size := rfl
  unfold tryLoad codeFor
  simp only [hlimit]
  cases m.codeAt cpu options.fallback (addresses attempt) (room options size) with
  | error e => rfl
  | ok code =>
    simp only [Except.ok_bind, Except.map]
    by_cases h : room options size < code.bytes.size
    · simp only [if_pos h]
    · simp only [if_neg h, write_reserve (Nat.not_lt.mp h)]
      rfl

/-- The attempts that loading makes, if it may make as many as there are larger rooms. -/
theorem exists_loads_loadFrom {fuel : Nat} (attempt size : Nat)
    (hfuel : options.maxCodeSize < fuel + room options size) :
    ∃ sizes, m.Loads cpu options addresses attempt size sizes
      (m.loadFrom cpu options addresses fuel attempt size) := by
  -- An attempt spends one unit of fuel and gains room, so their sum stays above the largest room.
  induction fuel generalizing attempt size with
  | zero =>
    have hle := room_le options size
    omega
  | succ fuel ih =>
    rw [loadFrom, tryLoad_eq]
    cases hcode : m.codeFor cpu options addresses attempt size with
    | error e => exact ⟨_, .fails hcode⟩
    | ok code =>
      simp only [Except.map, Except.ok_bind]
      by_cases hlt : room options size < code.bytes.size
      · rw [if_pos hlt]
        by_cases hmax : options.maxCodeSize ≤ room options size
        · have hlimit : options.maxCodeSize ≤ codeLimit options (.reserve size) := hmax
          simp only [if_pos hlimit]
          exact ⟨_, .exceeds hcode hlt hmax⟩
        · have hlimit : ¬ options.maxCodeSize ≤ codeLimit options (.reserve size) := hmax
          have hmore := room_lt (Nat.not_le.mp hmax) hlt
          obtain ⟨sizes, hsizes⟩ := ih (attempt + 1)
            (min (code.bytes.size * 2) options.maxCodeSize) (by omega)
          simp only [if_neg hlimit]
          exact ⟨_, .grows hcode hlt (Nat.not_le.mp hmax) hsizes⟩
      · rw [if_neg hlt]
        exact ⟨_, .fits hcode (Nat.not_lt.mp hlt)⟩

namespace Loads

variable {attempt size : Nat} {sizes sizes' : List Nat} {outcome outcome' : Except CodeError Loaded}

/-- There is one way in which loading goes. -/
lemma unique (h : m.Loads cpu options addresses attempt size sizes outcome)
    (h' : m.Loads cpu options addresses attempt size sizes' outcome') :
    sizes = sizes' ∧ outcome = outcome' := by
  induction h generalizing sizes' outcome' with
  | fits made le => cases h' <;> simp_all <;> omega
  | fails made => cases h' <;> simp_all
  | exceeds made lt largest => cases h' <;> simp_all <;> omega
  | grows made lt smaller rest ih =>
    cases h' with
    | grows made' lt' smaller' rest' =>
      obtain rfl := Except.ok.inj (made.symm.trans made')
      obtain ⟨rfl, rfl⟩ := ih rest'
      exact ⟨rfl, rfl⟩
    | _ => simp_all <;> omega

lemma head_eq (h : m.Loads cpu options addresses attempt size sizes outcome) :
    sizes.head? = some size := by
  cases h <;> rfl

/-- Loading ends with its last attempt. -/
lemma exists_last (h : m.Loads cpu options addresses attempt size sizes outcome) :
    ∃ before last, sizes = before ++ [last] ∧
      m.Loads cpu options addresses (attempt + before.length) last [last] outcome := by
  induction h with
  | @grows attempt size code sizes outcome made lt smaller rest ih =>
    obtain ⟨before, last, rfl, hlast⟩ := ih
    refine ⟨size :: before, last, rfl, ?_⟩
    rw [List.length_cons, Nat.add_comm before.length, ← Nat.add_assoc]
    exact hlast
  | fits made le => exact ⟨[], _, rfl, .fits made le⟩
  | fails made => exact ⟨[], _, rfl, .fails made⟩
  | exceeds made lt largest => exact ⟨[], _, rfl, .exceeds made lt largest⟩

end Loads

/-! ## What loading ends with -/

/-- A method is loaded into the region of an attempt: its code was made for the address of the
region and keeps within the room, nothing refused to write it there, and the region holds it. -/
structure Fills (m : Method) (cpu : Cpu) (options : Options) (addresses : Placements)
    (attempt size : Nat) (l : Loaded) : Prop where
  method_eq : l.method = m
  made : m.codeAt cpu options.fallback (addresses attempt) (room options size) = .ok l.code
  base_eq : l.code.base = addresses attempt
  capacity_eq : l.region.capacity = (Region.reserve size).capacity
  size_le : l.code.bytes.size ≤ min l.region.capacity options.maxCodeSize
  written : ((Region.reserve size).write l.code.bytes).map Region.makeExecutable = .ok l.region
  code_eq : l.region.code = l.code.bytes
  executable : l.region.executable = true

lemma base_of_codeAt {fallback : VectorFallback} {base : UInt64} {limit : Nat} {code : MachineCode}
    (h : m.codeAt cpu fallback base limit = .ok code) : code.base = base := by
  unfold codeAt at h
  split at h
  · cases h
  · obtain ⟨_, -, h⟩ := Except.bind_eq_ok_iff.mp h
    obtain ⟨_, -, h⟩ := Except.bind_eq_ok_iff.mp h
    obtain ⟨_, -, h⟩ := Except.bind_eq_ok_iff.mp h
    obtain ⟨_, -, h⟩ := Except.bind_eq_ok_iff.mp h
    rw [← Except.ok.inj h]

variable {attempt last : Nat}

lemma fills_of_loads {l : Loaded} (h : m.Loads cpu options addresses attempt last [last] (.ok l)) :
    m.Fills cpu options addresses attempt last l := by
  cases h with
  | fits made le =>
    refine ⟨rfl, made, base_of_codeAt made, rfl, le, ?_, rfl, rfl⟩
    rw [write_reserve le]
    rfl
  | grows made lt smaller rest => cases rest.head_eq

/-- What is loaded fills the region of some attempt. -/
lemma exists_fills {l : Loaded} (h : m.load cpu options addresses = .ok l) :
    ∃ attempt last, m.Fills cpu options addresses attempt last l := by
  unfold load at h
  split at h
  · cases h
  · obtain ⟨sizes, hloads⟩ : ∃ sizes, m.Loads cpu options addresses 0
        (max (min options.initialCapacity options.maxCodeSize) 1) sizes (.ok l) :=
      h ▸ exists_loads_loadFrom 0 _ (by omega)
    obtain ⟨before, last, -, hlast⟩ := hloads.exists_last
    exact ⟨_, last, fills_of_loads hlast⟩

/-- A method that does nothing but return. -/
def returning : Method := ⟨none, .noType, [], [⟨none, [.node .ret .noType .none []]⟩]⟩

end Method

end TreeCode
