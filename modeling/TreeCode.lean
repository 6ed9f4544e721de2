import TreeCode.Main
import TreeCode.Proofs.Addressing
import TreeCode.Proofs.Blame
import TreeCode.Proofs.Constants
import TreeCode.Proofs.ControlFlow
import TreeCode.Proofs.Counters
import TreeCode.Proofs.Displacement
import TreeCode.Proofs.Failures
import TreeCode.Proofs.Faults
import TreeCode.Proofs.Growth
import TreeCode.Proofs.Integers
import TreeCode.Proofs.Kernels
import TreeCode.Proofs.Likeness
import TreeCode.Proofs.Limits
import TreeCode.Proofs.Membership
import TreeCode.Proofs.ObjectReading
import TreeCode.Proofs.Passing
import TreeCode.Proofs.Preservation
import TreeCode.Proofs.Pressure
import TreeCode.Proofs.Recognition
import TreeCode.Proofs.Recursion
import TreeCode.Proofs.Relocation
import TreeCode.Proofs.Reservation
import TreeCode.Proofs.RoundTrip
import TreeCode.Proofs.Sessions
import TreeCode.Proofs.Slots
import TreeCode.Proofs.Transfers
import TreeCode.Session
import TreeCode.Signature
import TreeCode.VectorKernel
