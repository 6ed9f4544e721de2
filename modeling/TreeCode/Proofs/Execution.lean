import Mathlib.Logic.Function.Basic
import Mathlib.Tactic.Common
import TreeCode.Proofs.Control

/-!
# What words of AArch64 do

Some instructions of AArch64 as the architecture defines them, by the fields of their words: loads
and stores whose immediate counts units of the access, the moves of a halfword into a register, and
the sum of two registers.  `execute?` follows the words of code one after the other and lists the
accesses to memory.  Registers are given by number; number 31 is the stack pointer where it holds
an address, and otherwise zero.

The words that instructions are encoded as do what the instructions say (`step?_move`,
`step?_moveHalf`, `step?_add`).
-/

namespace TreeCode.A64

/-- The registers of a processor and the memory that it sees.  There is no general purpose register
with number 31. -/
structure Core where
  general : Register → UInt64
  stack : UInt64
  vector : Register → BitVec 128
  memory : UInt64 → UInt8

/-- An access to memory. -/
structure Touch where
  isLoad : Bool
  address : UInt64
  bytes : Nat
  deriving DecidableEq, Repr

/-- What a load or store does with a register and some bytes of memory. -/
inductive MemoryOp where
  | store (bank : Bank) (bytes : Nat)
  /-- Clears the bits of the register above those that are loaded. -/
  | load (bank : Bank) (bytes : Nat)
  /-- Extends the sign of what is loaded to 64 bits, or to 32 bits and clears the others. -/
  | loadSigned (wide : Bool) (bytes : Nat)
  deriving DecidableEq, Repr

namespace MemoryOp

/-- Number of bytes read or written. -/
def bytes : MemoryOp → Nat
  | store _ bytes | load _ bytes | loadSigned _ bytes => bytes

/-- Whether memory is read. -/
def isLoad : MemoryOp → Bool
  | store .. => false
  | _ => true

/-- The operation that the fields `size`, `V` and `opc` of a word stand for. -/
def ofFields? (size v opc : Nat) : Option MemoryOp :=
  match v, opc with
  | 0, 0 => some (store .general (2 ^ size))
  | 0, 1 => some (load .general (2 ^ size))
  | 0, 2 => if size < 3 then some (loadSigned true (2 ^ size)) else none
  | 0, 3 => if size < 2 then some (loadSigned false (2 ^ size)) else none
  | 1, 0 => some (store .vector (2 ^ size))
  | 1, 1 => some (load .vector (2 ^ size))
  | 1, 2 => if size = 0 then some (store .vector 16) else none
  | 1, 3 => if size = 0 then some (load .vector 16) else none
  | _, _ => none

/-- The operation of an access: integers narrower than 32 bits have their sign extended to 32 bits
when they are loaded. -/
def ofAccess (isLoad : Bool) (access : Access) : MemoryOp :=
  if isLoad then
    match access with
    | .i8 | .i16 => loadSigned false access.bytes
    | _ => load access.bank access.bytes
  else store access.bank access.bytes

lemma bytes_ofAccess (isLoad : Bool) (access : Access) :
    (ofAccess isLoad access).bytes = access.bytes := by
  cases isLoad <;> cases access <;> rfl

lemma isLoad_ofAccess (isLoad : Bool) (access : Access) :
    (ofAccess isLoad access).isLoad = isLoad := by
  cases isLoad <;> cases access <;> rfl

end MemoryOp

namespace Core

/-- The register of a number, or zero. -/
def read (c : Core) (r : Register) : UInt64 := if r = r31 then 0 else c.general r

/-- Sets the register of a number, if there is one. -/
def write (c : Core) (r : Register) (value : UInt64) : Core :=
  if r = r31 then c else { c with general := Function.update c.general r value }

/-- Sets a vector register. -/
def writeVector (c : Core) (r : Register) (value : BitVec 128) : Core :=
  { c with vector := Function.update c.vector r value }

/-- The address in the register of a number or in the stack pointer. -/
def address (c : Core) (r : Register) : UInt64 := if r = r31 then c.stack else c.general r

/-- The `count` bytes from an address on, which goes around at the end of the address space. -/
def bytesAt (c : Core) (address : UInt64) (count : Nat) : List UInt8 :=
  (List.range count).map fun i => c.memory (address + UInt64.ofNat i)

/-- Replaces the bytes from an address on. -/
def setBytes (c : Core) (address : UInt64) (bytes : List UInt8) : Core :=
  { c with memory := fun a => (bytes[(a - address).toNat]?).getD (c.memory a) }

/-- Loads or stores a register. -/
def perform (c : Core) (r : Register) (address : UInt64) : MemoryOp → Core
  | .store .general bytes => c.setBytes address (littleEndian bytes (c.read r).toNat)
  | .store .vector bytes => c.setBytes address (littleEndian bytes (c.vector r).toNat)
  | .load .general bytes => c.write r (UInt64.ofNat (ofLittleEndian (c.bytesAt address bytes)))
  | .load .vector bytes =>
    c.writeVector r (BitVec.ofNat 128 (ofLittleEndian (c.bytesAt address bytes)))
  | .loadSigned wide bytes =>
    let value := signedField (8 * bytes) (ofLittleEndian (c.bytesAt address bytes))
    c.write r (if wide then UInt64.ofInt value else (UInt32.ofInt value).toUInt64)

end Core

/-- Number of halfwords of a register of a width. -/
def halfwords (wide : Bool) : Nat := if wide then 4 else 2

/-- The number that a register of a width holds; above its width it is zero. -/
def narrowed (wide : Bool) (value : UInt64) : UInt64 :=
  if wide then value else value.toUInt32.toUInt64

/-- What setting a halfword makes of the number in a register: the other halfwords of the width are
kept or cleared. -/
def setHalf (wide keep : Bool) (half : Nat) (imm : UInt32) (old : UInt64) : UInt64 :=
  withHalfword (if keep then narrowed wide old else 0) half imm

/-- The register that five bits of a number name, from a bit on. -/
def registerField (n bit : Nat) : Register := ⟨n / 2 ^ bit % 32, Nat.mod_lt _ (by decide)⟩

/-- Does what a word says, and the accesses to memory that this takes. -/
def step? (word : UInt32) (c : Core) : Option (Core × List Touch) :=
  let n := word.toNat
  let rd := registerField n 0
  let rn := registerField n 5
  let rm := registerField n 16
  if n / 2 ^ 27 % 8 = 7 ∧ n / 2 ^ 24 % 4 = 1 then
    (MemoryOp.ofFields? (n / 2 ^ 30) (n / 2 ^ 26 % 2) (n / 2 ^ 22 % 4)).map fun op =>
      let address := c.address rn + UInt64.ofNat (n / 2 ^ 10 % 2 ^ 12 * op.bytes)
      (c.perform rd address op, [⟨op.isLoad, address, op.bytes⟩])
  else if n / 2 ^ 30 % 2 = 1 ∧ n / 2 ^ 23 % 2 ^ 6 = 0x25 then
    let wide := n / 2 ^ 31 == 1
    let keep := n / 2 ^ 29 % 2 == 1
    let half := n / 2 ^ 21 % 4
    let imm := UInt32.ofNat (n / 2 ^ 5 % 2 ^ 16)
    if half < halfwords wide then some (c.write rd (setHalf wide keep half imm (c.read rd)), [])
    else none
  else if n / 2 ^ 21 = 0x458 then
    some (c.write rd (c.read rn + c.read rm <<< UInt64.ofNat (n / 2 ^ 10 % 2 ^ 6)), [])
  else none

/-- Does what the words of some bytes say, one after the other. -/
def execute? : List UInt8 → Core → Option (Core × List Touch)
  | [], c => some (c, [])
  | b₀ :: b₁ :: b₂ :: b₃ :: rest, c => do
    let (c, touches) ← step? (UInt32.ofNat (ofLittleEndian [b₀, b₁, b₂, b₃])) c
    let (c, others) ← execute? rest c
    some (c, touches ++ others)
  | _, _ => none

variable {c d : Core} {dst src base lhs rhs r : Register} {imm : UInt32} {access : Access}

@[simp] lemma encodeAll_nil : encodeAll [] = [] := rfl

lemma encodeAll_cons (i : Inst) (insts : List Inst) :
    encodeAll (i :: insts) = wordBytes i.encode ++ encodeAll insts := rfl

lemma execute?_wordBytes (word : UInt32) (rest : List UInt8) (c : Core) :
    execute? (wordBytes word ++ rest) c = (step? word c).bind fun (d, touches) =>
      (execute? rest d).map fun (e, others) => (e, touches ++ others) := by
  have hword := ofLittleEndian_wordBytes word
  simp only [wordBytes, littleEndian, List.cons_append, List.nil_append] at hword ⊢
  simp only [execute?, hword, UInt32.ofNat_toNat]
  cases step? word c with
  | none => rfl
  | some result =>
    rw [Option.bind_some, Option.map_eq_bind]
    rfl

/-- What is done without an access to memory. -/
lemma execute?_silent {i : Inst} (h : step? i.encode c = some (d, [])) (rest : List UInt8) :
    execute? (wordBytes i.encode ++ rest) c = execute? rest d := by
  rw [execute?_wordBytes, h, Option.bind_some]
  simp

/-! ## Registers -/

namespace Core

lemma read_write_self (h : r ≠ r31) (value : UInt64) : (c.write r value).read r = value := by
  simp [read, write, h]

lemma write_of_ne (h : r ≠ r31) (c : Core) (value : UInt64) :
    c.write r value = { c with general := Function.update c.general r value } := if_neg h

lemma write_write (c : Core) (r : Register) (a b : UInt64) :
    (c.write r a).write r b = c.write r b := by
  unfold write
  split <;> simp

/-- What is written is read again, unless there is no such register, and then nothing is written. -/
lemma write_read_write (c : Core) (r : Register) (value : UInt64) (f : UInt64 → UInt64) :
    c.write r (f ((c.write r value).read r)) = c.write r (f value) := by
  by_cases h : r = r31
  · simp only [write, if_pos h]
  · rw [read_write_self h]

lemma write_read (c : Core) (r : Register) : c.write r (c.read r) = c := by
  unfold write read
  split <;> simp

lemma read_eq_address (h : r ≠ r31) : c.read r = c.address r := by
  rw [read, if_neg h, address, if_neg h]

end Core

/-! ## The fields of words -/

lemma toNat_field (r : Register) : (field r 5).toNat = 2 ^ 5 * r.val ∧ (field r 0).toNat = r.val ∧
    (field r 16).toNat = 2 ^ 16 * r.val := by
  revert r
  decide

/-- The word of a load or store. -/
lemma toNat_move {pattern : UInt32} {m : Nat} (hpattern : pattern.toNat = 2 ^ 22 * m)
    (himm : imm.toNat < 2 ^ 12) :
    (pattern ||| (imm <<< 10) ||| field base 5 ||| field r 0).toNat =
      2 ^ 22 * m + 2 ^ 10 * imm.toNat + 2 ^ 5 * base.val + r.val := by
  obtain ⟨hbase, -, -⟩ := toNat_field base
  obtain ⟨-, hr, -⟩ := toNat_field r
  have hshift : (imm <<< 10).toNat = 2 ^ 10 * imm.toNat := by
    have h10 : (10 : UInt32).toNat % 32 = 10 := rfl
    rw [UInt32.toNat_shiftLeft, h10, Nat.shiftLeft_eq]
    omega
  have hlow : (field base 5 ||| field r 0).toNat = 2 ^ 5 * base.val + r.val := by
    rw [toNat_or_of_lt hbase (by omega), hbase, hr]
  have hmiddle : ((imm <<< 10) ||| (field base 5 ||| field r 0)).toNat =
      2 ^ 10 * imm.toNat + (2 ^ 5 * base.val + r.val) := by
    rw [toNat_or_of_lt hshift (by omega), hshift, hlow]
  rw [UInt32.or_assoc, UInt32.or_assoc, toNat_or_of_lt hpattern (by omega), hmiddle, hpattern]
  omega

/-- The patterns of loads and stores by their fields. -/
lemma pattern_fields (isLoad : Bool) (access : Access) : ∃ size v opc : Nat,
    (if isLoad then loadPattern access else storePattern access).toNat =
        2 ^ 22 * (2 ^ 8 * size + 2 ^ 4 * v + opc + 2 ^ 5 * 7 + 2 ^ 2 * 1) ∧
      size < 4 ∧ v < 2 ∧ opc < 4 ∧
        MemoryOp.ofFields? size v opc = some (MemoryOp.ofAccess isLoad access) := by
  cases isLoad <;> cases access
  · exact ⟨0, 0, 0, rfl, by decide⟩
  · exact ⟨1, 0, 0, rfl, by decide⟩
  · exact ⟨2, 0, 0, rfl, by decide⟩
  · exact ⟨3, 0, 0, rfl, by decide⟩
  · exact ⟨2, 1, 0, rfl, by decide⟩
  · exact ⟨3, 1, 0, rfl, by decide⟩
  · exact ⟨0, 1, 2, rfl, by decide⟩
  · exact ⟨0, 0, 3, rfl, by decide⟩
  · exact ⟨1, 0, 3, rfl, by decide⟩
  · exact ⟨2, 0, 1, rfl, by decide⟩
  · exact ⟨3, 0, 1, rfl, by decide⟩
  · exact ⟨2, 1, 1, rfl, by decide⟩
  · exact ⟨3, 1, 1, rfl, by decide⟩
  · exact ⟨0, 1, 3, rfl, by decide⟩

/-! ## Instructions -/

/-- The load or store of a register at a base and an immediate in units of the access. -/
def move (isLoad : Bool) (access : Access) (r base : Register) (imm : UInt32) : Inst :=
  if isLoad then .load access r base imm else .store access r base imm

/-- A load or store is one access, at its base and as many units of the access as it says. -/
lemma step?_move (isLoad : Bool) (himm : imm.toNat < 2 ^ 12) (c : Core) :
    step? (move isLoad access r base imm).encode c =
      some (c.perform r (c.address base + UInt64.ofNat (imm.toNat * access.bytes))
          (MemoryOp.ofAccess isLoad access),
        [⟨isLoad, c.address base + UInt64.ofNat (imm.toNat * access.bytes), access.bytes⟩]) := by
  obtain ⟨size, v, opc, hpattern, hsize, hv, hopc, hfields⟩ := pattern_fields isLoad access
  have hword : (move isLoad access r base imm).encode.toNat =
      2 ^ 22 * (2 ^ 8 * size + 2 ^ 4 * v + opc + 2 ^ 5 * 7 + 2 ^ 2 * 1) + 2 ^ 10 * imm.toNat +
        2 ^ 5 * base.val + r.val := by
    cases isLoad <;> exact toNat_move hpattern himm
  have hbase := base.isLt
  have hr := r.isLt
  generalize (move isLoad access r base imm).encode = word at hword
  have hrd : registerField word.toNat 0 = r := Fin.ext (show word.toNat / 2 ^ 0 % 32 = _ by omega)
  have hrn : registerField word.toNat 5 = base :=
    Fin.ext (show word.toNat / 2 ^ 5 % 32 = _ by omega)
  have himm' : word.toNat / 2 ^ 10 % 2 ^ 12 = imm.toNat := by omega
  have hsize' : word.toNat / 2 ^ 30 = size := by omega
  have hv' : word.toNat / 2 ^ 26 % 2 = v := by omega
  have hopc' : word.toNat / 2 ^ 22 % 4 = opc := by omega
  simp only [step?, hrd, hrn, himm', hsize', hv', hopc', hfields, Option.map_some,
    MemoryOp.bytes_ofAccess, MemoryOp.isLoad_ofAccess]
  rw [if_pos ⟨by omega, by omega⟩]

lemma halfwords_le (wide : Bool) : halfwords wide ≤ 4 := by
  cases wide <;> decide

/-- The instruction that sets a halfword of a register and keeps or clears the others. -/
def moveHalf (keep wide : Bool) (half : Nat) (imm : UInt32) (dst : Register) : Inst :=
  if keep then .movk wide half imm dst else .movz wide half imm dst

/-- Setting a halfword sets a register. -/
lemma step?_moveHalf {half : Nat} (keep wide : Bool) (hhalf : half < halfwords wide)
    (himm : imm.toNat < 2 ^ 16) (c : Core) :
    step? (moveHalf keep wide half imm dst).encode c =
      some (c.write dst (setHalf wide keep half imm (c.read dst)), []) := by
  have hhalf4 := Nat.lt_of_lt_of_le hhalf (halfwords_le wide)
  have hpattern : ((if keep then movkPattern wide else movzPattern wide) |||
      (UInt32.ofNat half <<< 21)).toNat =
        2 ^ 21 * (2 ^ 10 * wide.toNat + 2 ^ 9 + 2 ^ 8 * keep.toNat + 2 ^ 2 * 0x25 + half) := by
    interval_cases half <;> cases keep <;> cases wide <;> rfl
  have hword : (moveHalf keep wide half imm dst).encode.toNat =
      2 ^ 21 * (2 ^ 10 * wide.toNat + 2 ^ 9 + 2 ^ 8 * keep.toNat + 2 ^ 2 * 0x25 + half) +
        2 ^ 5 * imm.toNat + dst.val := by
    cases keep <;> exact toNat_halfword hpattern himm
  have hdst := dst.isLt
  have hwide := wide.toNat_lt
  have hkeep := keep.toNat_lt
  generalize (moveHalf keep wide half imm dst).encode = word at hword
  have hrd : registerField word.toNat 0 = dst :=
    Fin.ext (show word.toNat / 2 ^ 0 % 32 = _ by omega)
  have hwide' : word.toNat / 2 ^ 31 = wide.toNat := by omega
  have hkeep' : word.toNat / 2 ^ 29 % 2 = keep.toNat := by omega
  have hhalf' : word.toNat / 2 ^ 21 % 4 = half := by omega
  have himm' : word.toNat / 2 ^ 5 % 2 ^ 16 = imm.toNat := by omega
  have hbit (b : Bool) : (b.toNat == 1) = b := by cases b <;> rfl
  simp only [step?, hrd, hwide', hkeep', hhalf', himm', hbit, UInt32.ofNat_toNat]
  rw [if_neg (by omega), if_pos ⟨by omega, by omega⟩, if_pos hhalf]

/-- Adding sets a register to the sum of two. -/
lemma step?_add (c : Core) :
    step? (Inst.data .add true dst lhs rhs).encode c =
      some (c.write dst (c.read lhs + c.read rhs), []) := by
  obtain ⟨hlhs, -, -⟩ := toNat_field lhs
  obtain ⟨-, hdst, -⟩ := toNat_field dst
  obtain ⟨-, -, hrhs⟩ := toNat_field rhs
  have hlow : (field lhs 5 ||| field dst 0).toNat = 2 ^ 5 * lhs.val + dst.val := by
    rw [toNat_or_of_lt hlhs (by omega), hlhs, hdst]
  have hmiddle : (field rhs 16 ||| (field lhs 5 ||| field dst 0)).toNat =
      2 ^ 16 * rhs.val + (2 ^ 5 * lhs.val + dst.val) := by
    rw [toNat_or_of_lt hrhs (by omega), hrhs, hlow]
  have hword : (Inst.data .add true dst lhs rhs).encode.toNat =
      2 ^ 21 * 0x458 + (2 ^ 16 * rhs.val + (2 ^ 5 * lhs.val + dst.val)) := by
    have hpattern : (atWidth true DataOp.add.pattern).toNat = 2 ^ 21 * 0x458 := rfl
    rw [Inst.encode, UInt32.or_assoc, UInt32.or_assoc, toNat_or_of_lt hpattern (by omega), hmiddle,
      hpattern]
  generalize (Inst.data .add true dst lhs rhs).encode = word at hword
  have hrd : registerField word.toNat 0 = dst :=
    Fin.ext (show word.toNat / 2 ^ 0 % 32 = _ by omega)
  have hrn : registerField word.toNat 5 = lhs :=
    Fin.ext (show word.toNat / 2 ^ 5 % 32 = _ by omega)
  have hrm : registerField word.toNat 16 = rhs :=
    Fin.ext (show word.toNat / 2 ^ 16 % 32 = _ by omega)
  have hshift : word.toNat / 2 ^ 10 % 2 ^ 6 = 0 := by omega
  simp only [step?, hrd, hrn, hrm, hshift]
  rw [if_neg (by omega), if_neg (by omega), if_pos (by omega)]
  simp

end TreeCode.A64
