import TreeCode.Bytes

/-!
# Memory

The memory that trees load from and store to consists of segments, each of them bytes that stand
one after the other from an address on.  A load or store has to lie within one segment; anywhere
else there is nothing to be read or written.
-/

namespace TreeCode

/-- Bytes that stand one after the other from an address on. -/
structure Segment where
  base : UInt64
  bytes : Array UInt8
  deriving DecidableEq, Repr

namespace Segment

/-- Whether `count` bytes from an address on lie within the segment. -/
def covers (s : Segment) (address : UInt64) (count : Nat) : Bool :=
  decide (s.base ≤ address ∧ address.toNat + count ≤ s.base.toNat + s.bytes.size)

/-- The place of an address behind the base. -/
def place (s : Segment) (address : UInt64) : Nat := address.toNat - s.base.toNat

end Segment

/-- The segments that can be loaded from and stored to.  Where two of them overlap, the first one
counts. -/
structure Memory where
  segments : List Segment
  deriving DecidableEq, Repr

namespace Memory

/-- The `count` bytes from an address on. -/
def read? (m : Memory) (address : UInt64) (count : Nat) : Option (List UInt8) :=
  (m.segments.find? (·.covers address count)).map fun s => slice s.bytes (s.place address) count

/-- Writes bytes into the first segment that covers them. -/
def writeTo? (address : UInt64) (bytes : List UInt8) : List Segment → Option (List Segment)
  | [] => none
  | s :: rest =>
    if s.covers address bytes.length then
      some ({ s with bytes := patch s.bytes (s.place address) bytes } :: rest)
    else (writeTo? address bytes rest).map (s :: ·)

/-- Replaces the bytes from an address on. -/
def write? (m : Memory) (address : UInt64) (bytes : List UInt8) : Option Memory :=
  (writeTo? address bytes m.segments).map Memory.mk

end Memory

end TreeCode
