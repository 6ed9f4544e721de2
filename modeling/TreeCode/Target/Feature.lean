/-!
# Processor features

A feature is one of 128 bits whose meaning depends on the instruction set.  A `FeatureSet` is a
finite set of bit numbers, kept in four 32-bit words as a probe of the hardware reports them.
-/

namespace TreeCode

/-- The instruction sets that code is made for. -/
inductive Isa where
  | aarch64
  | x64
  deriving DecidableEq, Repr

/-- Name of an instruction set. -/
def Isa.name : Isa → String
  | aarch64 => "aarch64"
  | x64 => "x86-64"

/-- Number of words of a feature set. -/
def featureWords : Nat := 4

/-- Number of feature bits. -/
def featureBits : Nat := featureWords * 32

/-- The number of a feature bit. -/
abbrev FeatureBit := Fin featureBits

/-- A set of feature bits, in words whose least significant bit comes first. -/
structure FeatureSet where
  words : Vector UInt32 featureWords
  deriving DecidableEq, Repr

namespace FeatureSet

/-- The set without bits. -/
def empty : FeatureSet := ⟨Vector.replicate featureWords 0⟩

/-- The word that a bit is in. -/
def wordIndex (b : FeatureBit) : Fin featureWords := ⟨b.val / 32, by
  have := b.isLt
  simp only [featureBits] at this
  omega⟩

/-- The word in which only the bit is set. -/
def mask (b : FeatureBit) : UInt32 := 1 <<< UInt32.ofNat (b.val % 32)

/-- Adds a bit. -/
def insert (s : FeatureSet) (b : FeatureBit) : FeatureSet :=
  ⟨s.words.set (wordIndex b).val (s.words[(wordIndex b).val] ||| mask b)⟩

/-- Whether a bit is in the set. -/
def contains (s : FeatureSet) (b : FeatureBit) : Bool :=
  (s.words[(wordIndex b).val] &&& mask b) != 0

/-- The bits of the set in increasing order. -/
def toList (s : FeatureSet) : List FeatureBit :=
  (List.finRange featureBits).filter s.contains

/-- Whether the set has no bits. -/
def isEmpty (s : FeatureSet) : Bool := s.words.toList.all (· == 0)

/-- Number of ones among the low `count` bits of a word. -/
def ones (w : UInt32) (count : Nat) : Nat :=
  ((List.range count).filter fun i => w.toNat.testBit i).length

/-- Number of bits in the set. -/
def size (s : FeatureSet) : Nat := s.words.toList.foldl (fun n w => n + ones w 32) 0

/-- The set as text: the numbers of its bits in braces. -/
def render (s : FeatureSet) : String :=
  "\x7b" ++ ", ".intercalate (s.toList.map fun b => toString b.val) ++ "\x7d"

end FeatureSet

/-- A feature that has a name. -/
structure Feature where
  isa : Isa
  bit : FeatureBit
  name : String
  deriving DecidableEq, Repr

namespace Feature

/-- Gives the names in a list to the bits from 0 on. -/
def numbered (isa : Isa) (names : List String) : List Feature :=
  names.zipIdx.filterMap fun (name, index) =>
    if h : index < featureBits then some ⟨isa, ⟨index, h⟩, name⟩ else none

/-- The named features of AArch64, in the order of their bits. -/
def aarch64 : List Feature := numbered .aarch64
  ["fp", "asimd", "evtstrm", "aes", "pmull", "sha1", "sha2", "crc32", "atomics", "fphp", "asimdhp",
    "cpuid", "asimdrdm", "jscvt", "fcma", "lrcpc", "dcpop", "sha3", "sm3", "sm4", "asimddp",
    "sha512", "sve", "asimdfhm", "dit", "uscat", "ilrcpc", "flagm", "ssbs", "sb", "paca", "pacg",
    "sve2", "i8mm", "bf16"]

/-- The named features of x86-64, in the order of their bits. -/
def x64 : List Feature := numbered .x64
  ["sse", "sse2", "sse3", "ssse3", "sse4.1", "sse4.2", "popcnt", "avx", "avx2", "fma", "bmi1",
    "bmi2", "lzcnt", "aes", "pclmulqdq", "avx512f"]

/-- The named features of an instruction set. -/
def ofIsa : Isa → List Feature
  | .aarch64 => aarch64
  | .x64 => x64

/-- The feature that brings the multiplication of 32-bit vector lanes to x86-64. -/
def sse41 : Feature := ⟨.x64, ⟨4, by decide⟩, "sse4.1"⟩

/-- The feature with a given name. -/
def ofName? (isa : Isa) (name : String) : Option Feature :=
  (ofIsa isa).find? fun f => f.name == name

example : ofName? .x64 "sse4.1" = some sse41 := by decide

end Feature

end TreeCode
