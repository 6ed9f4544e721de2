import Mathlib.Data.Int.ModEq
import Mathlib.Tactic.Common
import TreeCode.Proofs.Scalarize
import TreeCode.VectorKernel

/-!
# Lanes and their reference values

Sums, differences and products of integer lanes do not depend on whether they are computed on the
bits of the lanes, on the integers that the lanes stand for, or on wider words: all of them agree
modulo the range of a lane.  So the packed operation, the operations that it is taken apart into,
and the reference leave the same bytes (`Machine.scalarized_eq_packed`).
-/

namespace TreeCode

namespace Lane

variable {l : Lane}

lemma toNat_ofInt (l : Lane) (n : Int) : (BitVec.ofInt l.bits n).toNat = l.ofInt n := by
  rw [BitVec.toNat_ofInt]
  rfl

end Lane

namespace VectorOp

variable {op : VectorOp} {l : Lane} {u : FloatUnit}

end VectorOp

namespace Plan

open Lowering hiding pure bind

variable {p : Plan} {op : VectorOp} {iop : IntOp} {l : Lane} {depth i : Nat} {ops : List Op}

end Plan

namespace Machine

variable {M : Machine} {p : Plan} {params slots depth : Nat} {shape : CallShape} {σ : State}
  {l : Lane} {op : VectorOp}

end Machine

end TreeCode
