import Mathlib.Tactic.Common
import TreeCode.Assembly
import TreeCode.Proofs.Entry
import TreeCode.Proofs.Nesting
import TreeCode.Proofs.Parsing

/-!
# Lowering preserves meaning

The operations of a method that is read from a text and assembled do on the machine what evaluating
the blocks and trees of the method does: after any number of steps of evaluation there is a time at
which the machine has the same memory, has made the same calls, and stands in the same block or has
returned the same value.
-/

namespace TreeCode

namespace Method

variable {m : Method} {cpu : Cpu} {base : UInt64} {options : Options} {fallback : VectorFallback}

/-- A method that there is code of has a checked flow of control and has been lowered without an
error. -/
lemma lower_of_codeAt {limit : Nat} {code : MachineCode}
    (h : m.codeAt cpu fallback base limit = .ok code) :
    m.checkFlow = .ok () ∧ (m.lower cpu fallback).Yields (m.lower cpu fallback).ops () := by
  unfold codeAt at h
  split at h
  · simp at h
  · obtain ⟨_, hflow, hassemble⟩ := Except.bind_eq_ok_iff.mp h
    obtain ⟨_, -, hresult⟩ := Except.bind_eq_ok_iff.mp hassemble
    obtain ⟨_, hlower, -⟩ := Except.bind_eq_ok_iff.mp hresult
    exact ⟨Except.mapError_eq_ok_iff.mp hflow, rfl, hlower⟩

lemma lower_of_assemble {code : MachineCode} (h : m.assemble cpu base options = .ok code) :
    m.checkFlow = .ok () ∧
      (m.lower cpu options.fallback).Yields (m.lower cpu options.fallback).ops () := by
  obtain ⟨_, hcode, -⟩ := Except.bind_eq_ok_iff.mp h
  exact lower_of_codeAt hcode

lemma params_lt_of_lower (h : (m.lower cpu fallback).Yields (m.lower cpu fallback).ops ()) :
    m.params.length < 2 ^ 32 := by
  obtain ⟨arguments, -, hassign, -⟩ := ops_of_lower h
  exact Nat.lt_of_le_of_lt (Isa.length_le_of_assignAll hassign) (by decide)

end Method

namespace Machine

variable {M : Machine} {P : Program} {p : Plan} {m : Method} {values : List Datum}

/-- Evaluation and the machine agree: they are in the same world, and either at places of the same
block, or behind the end of the method with the same result. -/
inductive Matches (P : Program) (type : DataType) : Progress × World → Config → Prop
  | at {pos : Position} {pc : Nat} {σ : State} (block_eq : P.blockAt pc = some pos.block) :
      Matches P type (.at pos, σ.world) (.running pc σ)
  | returned {result : Option Datum} {σ : State} (returns : Returns σ type result) :
      Matches P type (.returned result, σ.world) (.returned σ)

lemma Related.matches {c : Progress × World} {c' : Config} (h : Related P p m values c c') :
    Matches P m.returnType c c' := by
  rcases h with ⟨hstands, -, -⟩ | hreturns
  · exact .at hstands.blockAt_eq
  · exact .returned hreturns

end Machine

/-- **Lowering preserves meaning.**  For a method that is read from a text and assembled, and
whatever the machine does where nothing is promised of it, there are times at which the program of
the method, entered with some arguments, is as far as evaluation of the method is after each number
of steps.  In particular it is stuck only if evaluation is. -/
theorem Method.matches_after {text : String} {m : Method} {cpu : Cpu} {base : UInt64}
    {options : Options} {code : MachineCode} (hparse : parse text = .ok m)
    (hassemble : m.assemble cpu base options = .ok code) {M : Machine} (hisa : M.isa = cpu.isa)
    {values : List Datum} {σ : Machine.State} (hpasses : M.Passes σ m.params values) :
    ∃ time : Nat → Nat, StrictMono time ∧ ∀ n,
      Option.Rel (Machine.Matches (m.program cpu options.fallback) m.returnType)
        (m.after (M.setting values) σ.world n)
        (M.run (m.program cpu options.fallback) (time n) (.running 0 σ)) := by
  obtain ⟨hflow, hlower⟩ := lower_of_assemble hassemble
  obtain ⟨e, he, hm⟩ := Except.bind_eq_ok_iff.mp hparse
  obtain ⟨htyped, hwritten⟩ := wellTyped_of_ofExpr hm (params_lt_of_lower hlower)
  have hlevels := levels_le_of_writtenBy he hwritten
  have hlowers := lowers_program hlower htyped hflow (Nat.le_trans hlevels (by decide))
  obtain ⟨t, c, hrun, hrelated⟩ := Machine.related_entry hisa hlower hlowers hpasses
  obtain ⟨time, hmono, htime⟩ := hrelated.after hisa hlowers hrun
  refine ⟨time, hmono, fun n => ?_⟩
  have hrel := htime n
  generalize m.after (M.setting values) σ.world n = a at hrel ⊢
  generalize M.run (m.program cpu options.fallback) (time n) (.running 0 σ) = b at hrel ⊢
  cases hrel with
  | none => exact .none
  | some hrelated => exact .some hrelated.matches

namespace Method

/-- A method that adds what it is called with to what is returned for it. -/
def sumText : String :=
  "(method return=Int32 args=[Int32] (block (ireturn (iadd (iload parm=0) " ++
    "(icall address=64 args=[Int32] (iload parm=0))))))"

/-- The method of the text `sumText`. -/
def sum : Method :=
  ⟨none, .int32, [.int32], [⟨none, [.node .ret .int32 .none [.node .add .int32 .none
    [.node .load .int32 (.parm 0) [],
      .node .call .int32 (.address 64) [.node .load .int32 (.parm 0) []]]]]⟩]⟩

set_option maxRecDepth 2000 in
lemma parse_sumText : parse sumText = .ok sum := by
  cbv

/-- Registers that all begin with the byte 5. -/
def fives : Registers :=
  let five : Contents := fun i => if i = 0 then 5 else 0
  ⟨fun _ => five, fun _ => five, fun _ => five⟩

/-- A machine on which the code outside returns its first argument. -/
def echo : Machine :=
  ⟨.aarch64, .exact, fun w c => some (c.arguments.head?, w.memory), fun _ => fives⟩

/-- The machine before the method is entered. -/
def entered : Machine.State := ⟨fives, fun _ => 0, 0, none, 0, ⟨⟨[]⟩, []⟩⟩

lemma passes_entered : echo.Passes entered sum.params [.int32 5] := by
  intro registers hassign i a type hi
  obtain rfl : [⟨.general, 0⟩] = registers := Option.some.inj hassign
  cases i with
  | zero =>
    obtain ⟨rfl, rfl⟩ := Prod.mk.inj (Option.some.inj hi)
    exact ⟨.int32 5, rfl, by decide⟩
  | succ i => simp [sum] at hi

/-- The sum is computed by the machine as it is by evaluation. -/
theorem matches_after_sum :
    ∃ code, parse sumText = .ok sum ∧
      sum.assemble (.baseline .aarch64) 0x10000 .default = .ok code ∧
      echo.Passes entered sum.params [.int32 5] ∧ ∃ time : Nat → Nat, StrictMono time ∧ ∀ n,
        Option.Rel (Machine.Matches (sum.program (.baseline .aarch64) .fail) .int32)
          (sum.after (echo.setting [.int32 5]) entered.world n)
          (echo.run (sum.program (.baseline .aarch64) .fail) (time n) (.running 0 entered)) := by
  have hassemble : ∃ code, sum.assemble (.baseline .aarch64) 0x10000 .default = .ok code :=
    ⟨_, rfl⟩
  obtain ⟨code, hcode⟩ := hassemble
  exact ⟨code, parse_sumText, hcode, passes_entered,
    matches_after parse_sumText hcode rfl passes_entered⟩

end Method

end TreeCode
