import TreeCode.Assembly

/-!
# Loading

To be run, a method is compiled for the address of a region of memory.  If the code does not fit, a
larger region is reserved and the method is compiled again for its address.  Where the regions are
placed is up to the machine and given as a function from the number of the attempt.
-/

namespace TreeCode

/-- The addresses that the machine gives to one region after the other. -/
abbrev Placements := Nat → UInt64

/-- The instruction set of the machine that loads code. -/
def hostIsa : Isa := .x64

/-- A method that has been loaded. -/
structure Loaded where
  method : Method
  code : MachineCode
  region : Region

/-- An attempt to load code: it is loaded, or it needs a larger region. -/
inductive Attempt where
  | loaded (l : Loaded)
  | tooLarge (size : Nat)

namespace Method

/-- The limit of the code in a region. -/
def codeLimit (options : Options) (region : Region) : Nat :=
  min region.capacity options.maxCodeSize

/-- Compiles a method for the address of a region and puts the code there if it fits. -/
def tryLoad (m : Method) (cpu : Cpu) (options : Options) (region : Region) (address : UInt64) :
    Except CodeError Attempt := do
  let limit := codeLimit options region
  let code ← m.codeAt cpu options.fallback address limit
  if limit < code.bytes.size then .ok (.tooLarge code.bytes.size)
  else
    let written ← (region.write code.bytes).mapError .region
    .ok (.loaded ⟨m, code, written.makeExecutable⟩)

/-- Tries regions of growing size, beginning with the given one.  An attempt that fails leaves a
larger limit to the next one, up to the maximum; so the limits that are left bound their number. -/
def loadFrom (m : Method) (cpu : Cpu) (options : Options) (addresses : Placements) :
    (fuel attempt capacity : Nat) → Except CodeError Loaded
  | 0, _, capacity => .error (.codeTooLarge capacity options.maxCodeSize)
  | fuel + 1, attempt, capacity => do
    let region := Region.reserve capacity
    match ← m.tryLoad cpu options region (addresses attempt) with
    | .loaded l => .ok l
    | .tooLarge size =>
      if options.maxCodeSize ≤ codeLimit options region then
        .error (.codeTooLarge size options.maxCodeSize)
      else loadFrom m cpu options addresses fuel (attempt + 1) (min (size * 2) options.maxCodeSize)

/-- Compiles and loads a method for the machine. -/
def load (m : Method) (cpu : Cpu) (options : Options) (addresses : Placements) :
    Except CodeError Loaded :=
  if cpu.isa ≠ hostIsa then .error (.foreignIsa cpu.isa hostIsa)
  else
    let capacity := max (min options.initialCapacity options.maxCodeSize) 1
    loadFrom m cpu options addresses (options.maxCodeSize + 1) 0 capacity

end Method

end TreeCode
