/-!
# Numbers as bytes

Numbers stand in memory and in code with their least significant byte first.
-/

namespace TreeCode

/-- How many 64-bit words there are. -/
def wordRange : Nat := 18446744073709551616

/-- The low `count` bytes of a number, least significant one first. -/
def littleEndian : (count n : Nat) → List UInt8
  | 0, _ => []
  | count + 1, n => UInt8.ofNat n :: littleEndian count (n / 256)

/-- The number whose bytes are given, least significant one first. -/
def ofLittleEndian : List UInt8 → Nat
  | [] => 0
  | b :: bs => b.toNat + 256 * ofLittleEndian bs

@[simp] theorem length_littleEndian (count n : Nat) : (littleEndian count n).length = count := by
  induction count generalizing n with
  | zero => rfl
  | succ count ih => simp [littleEndian, ih]

/-- Reading back gives the number modulo the range of its bytes. -/
theorem ofLittleEndian_littleEndian (count n : Nat) :
    ofLittleEndian (littleEndian count n) = n % Nat.pow 256 count := by
  induction count generalizing n with
  | zero => simp [littleEndian, ofLittleEndian, Nat.mod_one]
  | succ count ih =>
    rw [littleEndian, ofLittleEndian, ih, show Nat.pow 256 (count + 1) = 256 * Nat.pow 256 count
      from Nat.mul_comm _ _, Nat.mod_mul]
    simp

/-- The bytes of a 32-bit word. -/
def wordBytes (w : UInt32) : List UInt8 := littleEndian 4 w.toNat

/-- The bytes of a 64-bit word. -/
def doubleWordBytes (w : UInt64) : List UInt8 := littleEndian 8 w.toNat

/-- Replaces the bytes from a place on.  Bytes that would fall behind the end are dropped. -/
def patch (code : Array UInt8) (place : Nat) : List UInt8 → Array UInt8
  | [] => code
  | b :: bs => patch (code.setIfInBounds place b) (place + 1) bs

/-- The `count` bytes from a place on. -/
def slice (code : Array UInt8) (place count : Nat) : List UInt8 :=
  (code.extract place (place + count)).toList

/-- The 32-bit word at a place. -/
def wordAt (code : Array UInt8) (place : Nat) : UInt32 :=
  UInt32.ofNat (ofLittleEndian (slice code place 4))

end TreeCode
