/-!
# Regions of executable memory

A region is reserved in whole pages, takes code once, and is then sealed: from there on it can be
executed and never changes again.
-/

namespace TreeCode

/-- Size of a page of memory, by what the system reports for it; a system may report none. -/
def pageSize (reported : Int) : Nat := if 0 < reported then reported.toNat else 4096

/-- Size of a page of memory of the system that is modelled. -/
def pageBytes : Nat := pageSize 4096

/-- Why a write to a region is refused. -/
inductive RegionError where
  /-- The region is sealed or holds code. -/
  | occupied
  | tooLong (size capacity : Nat)
  deriving DecidableEq, Repr

/-- The wording of a refusal. -/
def RegionError.message : RegionError → String
  | occupied => "region already holds code"
  | tooLong size capacity =>
    toString size ++ " bytes of code exceed a " ++ toString capacity ++ " byte region"

/-- A region of memory: its size, the code written to its beginning, and whether it is sealed.
Behind the code all bytes are zero. -/
structure Region where
  capacity : Nat
  code : Array UInt8
  executable : Bool
  deriving DecidableEq, Repr

namespace Region

/-- Reserves at least `size` bytes in whole pages of some size, at least one. -/
def reserveIn (page size : Nat) : Region :=
  ⟨(max size 1 + page - 1) / page * page, #[], false⟩

/-- Reserves at least `size` bytes in whole pages, at least one. -/
def reserve (size : Nat) : Region := reserveIn pageBytes size

/-- Number of bytes of code. -/
def size (r : Region) : Nat := r.code.size

/-- Whether no code has been written. -/
def isEmpty (r : Region) : Bool := r.code.isEmpty

/-- The byte at a place of the region. -/
def byte (r : Region) (i : Nat) : UInt8 := r.code.getD i 0

/-- Writes code to the beginning of a region. -/
def write (r : Region) (code : Array UInt8) : Except RegionError Region :=
  if r.executable || !r.isEmpty then .error .occupied
  else if r.capacity < code.size then .error (.tooLong code.size r.capacity)
  else .ok ⟨r.capacity, code, r.executable⟩

/-- Makes a region executable. -/
def makeExecutable (r : Region) : Region := ⟨r.capacity, r.code, true⟩

end Region

end TreeCode
