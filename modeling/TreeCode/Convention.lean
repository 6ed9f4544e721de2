import TreeCode.Instr

/-!
# Registers and calling conventions

Values are held in the registers of two pools, one for each bank.  Arguments are passed in
registers.  Each bank has a row of argument registers that are given out in
order, integers and addresses from the one and floating point numbers from the other; other types,
and arguments for which no register is left, are refused.
-/

namespace TreeCode

/-- Number of registers in the pool of a bank. -/
def Isa.pool : Isa → Bank → Nat
  | aarch64, .general => 7
  | aarch64, .vector => 16
  | x64, .general => 7
  | x64, .vector => 15

/-- How many argument registers the banks have. -/
structure Convention where
  general : Nat
  vector : Nat
  deriving DecidableEq, Repr

/-- The convention of an instruction set: System V on x86-64, the standard procedure call on
AArch64. -/
def Isa.convention : Isa → Convention
  | aarch64 => ⟨8, 8⟩
  | x64 => ⟨6, 8⟩

namespace Convention

/-- How many argument registers have been given out. -/
structure Used where
  general : Nat
  vector : Nat
  deriving DecidableEq, Repr

/-- The bank that passes arguments of a type, if there is one. -/
def bank? (t : DataType) : Option Bank :=
  if t.isIntegral then some .general else if t.isFloating then some .vector else none

/-- Gives out a register for an argument. -/
def assign (c : Convention) (u : Used) (t : DataType) : Option Argument × Used :=
  match bank? t with
  | some .general =>
    if u.general < c.general then (some ⟨.general, u.general⟩, ⟨u.general + 1, u.vector⟩)
    else (none, u)
  | some .vector =>
    if u.vector < c.vector then (some ⟨.vector, u.vector⟩, ⟨u.general, u.vector + 1⟩)
    else (none, u)
  | none => (none, u)

/-- The answers for a list of arguments one after the other; a refusal does not end them. -/
def assignEach (c : Convention) (u : Used) : List DataType → List (Option Argument)
  | [] => []
  | t :: ts =>
    let (answer, u) := c.assign u t
    answer :: c.assignEach u ts

/-- Registers for all arguments of a signature, if each one gets a register. -/
def assignAll (c : Convention) (types : List DataType) : Option (List Argument) :=
  (c.assignEach ⟨0, 0⟩ types).mapM id

end Convention

end TreeCode
