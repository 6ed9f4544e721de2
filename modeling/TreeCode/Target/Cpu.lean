import TreeCode.DataType
import TreeCode.Target.Reach
import TreeCode.Text.Hex

/-!
# Processors and what they can do

A `Cpu` describes the processor code is made for: the generation to aim at, the generation that is
really there, which may be a later one of the same family, and the features it has.  Whatever the
choice of instructions depends on is asked here.
-/

namespace TreeCode

/-- Processor generations. -/
inductive Processor where
  | arm80
  | arm81
  | arm82
  | arm83
  | arm84
  | arm85
  | x64Generic
  | nehalem
  | sandyBridge
  | haswell
  | skylake
  | iceLake
  deriving DecidableEq, Repr

namespace Processor

/-- The known processor generations. -/
def all : List Processor :=
  [arm80, arm81, arm82, arm83, arm84, arm85, x64Generic, nehalem, sandyBridge, haswell, skylake,
    iceLake]

/-- The instruction set of a processor. -/
def isa : Processor → Isa
  | arm80 | arm81 | arm82 | arm83 | arm84 | arm85 => .aarch64
  | x64Generic | nehalem | sandyBridge | haswell | skylake | iceLake => .x64

/-- Name of a processor. -/
def name : Processor → String
  | arm80 => "ARMv8-A"
  | arm81 => "ARMv8.1-A"
  | arm82 => "ARMv8.2-A"
  | arm83 => "ARMv8.3-A"
  | arm84 => "ARMv8.4-A"
  | arm85 => "ARMv8.5-A"
  | x64Generic => "x86-64"
  | nehalem => "Nehalem"
  | sandyBridge => "Sandy Bridge"
  | haswell => "Haswell"
  | skylake => "Skylake"
  | iceLake => "Ice Lake"

/-- The processor with a given name. -/
def ofName? (s : String) : Option Processor := all.find? fun p => p.name == s

end Processor

/-- The processor assumed of an instruction set about which nothing else is known. -/
def Isa.baseline : Isa → Processor
  | aarch64 => .arm80
  | x64 => .x64Generic

/-- Why a description of a processor is refused. -/
inductive CpuError where
  /-- The two processors are of different families. -/
  | processorMismatch (logical physical : Processor)
  deriving DecidableEq, Repr

/-- The wording of a refusal. -/
def CpuError.message : CpuError → String
  | processorMismatch logical physical =>
    "physical processor " ++ physical.name ++ " does not belong to the " ++ logical.isa.name
      ++ " family of " ++ logical.name

/-- Whether the processor has an instruction for lane-wise arithmetic. -/
inductive VectorSupport where
  /-- Every processor of the family has it. -/
  | native
  | requires (feature : Feature)
  | unavailable
  deriving DecidableEq, Repr

/-- A processor to make code for. -/
structure Cpu where
  logical : Processor
  physical : Processor
  features : FeatureSet
  sameFamily : physical.isa = logical.isa

namespace Cpu

/-- The baseline processor of an instruction set, without features. -/
def baseline (isa : Isa) : Cpu := ⟨isa.baseline, isa.baseline, .empty, rfl⟩

/-- The processor with the given generations and features, which have to be of one family. -/
def make (logical physical : Processor) (features : FeatureSet) : Except CpuError Cpu :=
  if h : physical.isa = logical.isa then .ok ⟨logical, physical, features, h⟩
  else .error (.processorMismatch logical physical)

/-- The instruction set. -/
def isa (c : Cpu) : Isa := c.logical.isa

/-- Name of the processor that is aimed at. -/
def name (c : Cpu) : String := c.logical.name

/-- Whether the processor has a feature.  A feature of another instruction set it never has. -/
def hasFeature (c : Cpu) (f : Feature) : Bool := f.isa == c.isa && c.features.contains f.bit

/-- Whether there is a square root instruction. -/
def hasSquareRoot (c : Cpu) : Bool :=
  match c.isa with
  | .aarch64 | .x64 => true

/-- Whether there is an instruction that rotates to the left; all processors can rotate to the
right. -/
def rotatesLeft (c : Cpu) : Bool :=
  match c.isa with
  | .aarch64 => false
  | .x64 => true

/-- Whether the processor can rotate, if need be to the left. -/
def canRotate (c : Cpu) (left : Bool) : Bool := !left || c.rotatesLeft

/-- The reach of direct branches. -/
def branchLimits (c : Cpu) : BranchLimits := c.isa.branchLimits

/-- Width of vectors in bits. -/
def vectorBits (c : Cpu) : Nat :=
  match c.isa with
  | .aarch64 | .x64 => 128

/-- Which lane-wise operations are single instructions. -/
def vectorSupport (c : Cpu) (op : VectorOp) (lane : Lane) : VectorSupport :=
  match op with
  | .add | .sub => .native
  | .div => if lane.isFloat then .native else .unavailable
  | .mul =>
    match c.isa, lane with
    | _, .f32 | _, .f64 => .native
    | .aarch64, .i64 => .unavailable
    | .aarch64, _ => .native
    | .x64, .i16 => .native
    | .x64, .i32 => .requires .sse41
    | .x64, _ => .unavailable

/-- Whether a lane-wise operation is a single instruction of this processor. -/
def supports (c : Cpu) (op : VectorOp) (lane : Lane) : Bool :=
  match c.vectorSupport op lane with
  | .native => true
  | .requires f => c.hasFeature f
  | .unavailable => false

/-- Square roots are instructions of every processor. -/
theorem hasSquareRoot_eq (c : Cpu) : c.hasSquareRoot = true := by
  unfold hasSquareRoot
  cases c.isa <;> rfl

/-- Every processor can rotate, to the left or to the right. -/
theorem canRotate_or (c : Cpu) : (c.canRotate true || c.canRotate false) = true := by
  simp [canRotate]

/-- The vectors of every processor have the width of the vector types. -/
theorem vectorBits_eq (c : Cpu) : c.vectorBits = vectorBytes * 8 := by
  unfold vectorBits
  cases c.isa <;> rfl

/-- The name of a feature bit, or its number if it has no name. -/
def featureName (isa : Isa) (b : FeatureBit) : String :=
  match (Feature.ofIsa isa).find? fun f => f.bit == b with
  | some f => f.name
  | none => "bit" ++ toString b.val

/-- A description of the processor, one property a line. -/
def render (c : Cpu) : String :=
  let limits := c.branchLimits
  "isa:        " ++ c.isa.name ++ "\n"
    ++ "logical:    " ++ c.logical.name ++ "\n"
    ++ "physical:   " ++ c.physical.name ++ "\n"
    ++ "vector:     " ++ toString c.vectorBits ++ " bits\n"
    ++ "branch:     +" ++ Text.hex limits.forward.toNat ++ " / -"
    ++ Text.hex limits.backward.toNat ++ "\n"
    ++ "features:  " ++ String.join (c.features.toList.map fun b => " " ++ featureName c.isa b)

end Cpu

/-- A processor description in the making. -/
structure CpuBuilder where
  logical : Processor
  physical : Option Processor
  features : FeatureSet

namespace CpuBuilder

/-- Begins with the processor to aim at. -/
def new (logical : Processor) : CpuBuilder := ⟨logical, none, .empty⟩

/-- Sets the processor that is there. -/
def withPhysical (b : CpuBuilder) (p : Processor) : CpuBuilder := ⟨b.logical, some p, b.features⟩

/-- Adds a feature bit. -/
def withBit (b : CpuBuilder) (bit : FeatureBit) : CpuBuilder :=
  ⟨b.logical, b.physical, b.features.insert bit⟩

/-- Replaces all feature bits. -/
def withFeatures (b : CpuBuilder) (features : FeatureSet) : CpuBuilder :=
  ⟨b.logical, b.physical, features⟩

/-- Ends the description; the processor aimed at is there unless another one was set. -/
def build (b : CpuBuilder) : Except CpuError Cpu :=
  Cpu.make b.logical (b.physical.getD b.logical) b.features

end CpuBuilder

end TreeCode
