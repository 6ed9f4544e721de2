import TreeCode.Proofs.Growth
import TreeCode.Proofs.KernelText
import TreeCode.Proofs.Patching
import TreeCode.Proofs.Preservation
import TreeCode.Proofs.Reference

/-!
# Kernels

What a kernel of an integer operation stores, when its trees are evaluated and when its operations
are run by a machine, with the packed instruction or without it: the reference values.
-/

namespace TreeCode

section

variable {s : Segment} {segments : List Segment} {a : UInt64} {n : Nat} {code : Array UInt8}

end

namespace Kernel

variable {op : VectorOp} {l : Lane} {s : Setting} {xs ys zs : List UInt8}

/-- The values of the parameters. -/
def arguments : List Datum :=
  [.int64 outAddress, .int64 operandAddresses.1, .int64 operandAddresses.2]

/-- The memory after the result has been stored. -/
def stored (xs ys zs : List UInt8) : Memory :=
  ⟨[⟨outAddress, patch (Array.replicate vectorBytes 0) 0 zs⟩, ⟨operandAddresses.1, xs.toArray⟩,
    ⟨operandAddresses.2, ys.toArray⟩]⟩

variable {a b : List Nat}

lemma length_join (ha : a.length = l.count) : (l.join a).length = vectorBytes := by
  rw [Lane.length_join, ha, l.count_mul_bytes]

variable {cpu : Cpu} {options : Options} {addresses : Placements} {loaded : Loaded}

/-- Options with which the product of 64-bit lanes is taken apart. -/
def apart : Options := ⟨.scalarize, 4096, 16777216⟩

end Kernel

end TreeCode
