import TreeCode.Target.Feature

/-!
# How far a branch reaches

A direct branch or call holds the distance to its target and reaches only so far; anything else
goes through a register that holds the target's address.  Distances are counted from the address
of the branch itself, and both limits are inclusive.
-/

namespace TreeCode

/-- The largest distances of a direct branch in bytes. -/
structure BranchLimits where
  forward : UInt64
  backward : UInt64
  deriving DecidableEq, Repr

/-- How a branch or call is made. -/
inductive BranchForm where
  /-- One instruction that holds the distance. -/
  | direct
  /-- Through a scratch register that holds the target's address. -/
  | indirect
  deriving DecidableEq, Repr

/-- The limits of an instruction set: 26 bits that count words on AArch64; on x86-64 a signed 32-bit
number of bytes from the end of the five bytes of the instruction. -/
def Isa.branchLimits : Isa → BranchLimits
  | aarch64 => ⟨0x07fffffc, 0x08000000⟩
  | x64 => ⟨0x80000004, 0x7ffffffb⟩

namespace BranchLimits

/-- Whether a direct branch at `source` reaches `target`. -/
def reaches (l : BranchLimits) (target source : UInt64) : Bool :=
  let delta : Int := (target.toNat : Int) - (source.toNat : Int)
  if 0 ≤ delta then decide (delta ≤ l.forward.toNat) else decide (-delta ≤ l.backward.toNat)

/-- The form of a branch at `source` to `target`. -/
def form (l : BranchLimits) (target source : UInt64) : BranchForm :=
  if l.reaches target source then .direct else .indirect

end BranchLimits

end TreeCode
