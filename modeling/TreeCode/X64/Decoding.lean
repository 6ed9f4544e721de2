import TreeCode.X64.Inst

/-!
# Decoding instructions of x86-64

Reads an instruction back from its bytes.  Only the instructions of `Inst` are known, and of
encodings that say the same only those that code is made of.
-/

namespace TreeCode.X64

/-- Reads from the front of a list of bytes. -/
abbrev Decoder := StateT (List UInt8) Option

namespace Decoder

/-- The next byte. -/
def byte : Decoder UInt8
  | b :: rest => some (b, rest)
  | [] => none

/-- The number that the next bytes make. -/
def number (count : Nat) : Decoder Nat := fun bytes =>
  if count ≤ bytes.length then some (ofLittleEndian (bytes.take count), bytes.drop count)
  else none

/-- The value if there is one; else there is no such instruction. -/
def ofOption {α : Type} (o : Option α) : Decoder α := fun bytes => o.map fun a => (a, bytes)

/-- Goes on only if a condition holds. -/
def check (condition : Bool) : Decoder Unit := if condition then pure () else failure

/-- The next four bytes as a signed number. -/
def signed32 : Decoder Int32 := do
  let n ← number 4
  pure (UInt32.ofNat n).toInt32

/-- The next byte as a signed number. -/
def signed8 : Decoder Int8 := do
  let b ← byte
  pure b.toInt8

end Decoder

/-- What the bytes in front of an opcode say. -/
structure Lead where
  mandatory : Option UInt8
  wide : Bool
  /-- High bit of the register operand. -/
  reg : Nat
  /-- High bit of the other operand. -/
  rm : Nat

/-- The operand of an instruction that is a register or a place in memory. -/
inductive Place where
  | register (r : Register)
  | memory (base : Register) (offset : Int32)

/-- A register by its low bits and its high bit. -/
def Register.ofParts (low high : Nat) : Register :=
  ⟨high % 2 * 8 + low % 8, by omega⟩

/-- The mandatory byte, the REX byte and the opcode behind them. -/
def lead : Decoder (Lead × UInt8) := do
  let first ← Decoder.byte
  let isMandatory := first == 0x66 || first == 0xf2 || first == 0xf3
  let next ← if isMandatory then Decoder.byte else pure first
  let mandatory := if isMandatory then some first else none
  if next.toNat / 16 = 4 then
    let opcode ← Decoder.byte
    let n := next.toNat
    pure (⟨mandatory, n / 8 % 2 = 1, n / 4 % 2, n % 2⟩, opcode)
  else pure (⟨mandatory, false, 0, 0⟩, next)

/-- The byte that names operands: the low bits of the register operand, and the other operand. -/
def operands (l : Lead) : Decoder (Nat × Place) := do
  let n := (← Decoder.byte).toNat
  let mode := n / 64
  let reg := n / 8 % 8
  let rm := Register.ofParts (n % 8) l.rm
  if mode = 3 then pure (reg, .register rm)
  else
    if n % 8 = 4 then Decoder.check ((← Decoder.byte) == 0x24)
    match mode with
    | 0 =>
      Decoder.check (n % 8 != 5)
      pure (reg, .memory rm 0)
    | 1 => do pure (reg, .memory rm (← Decoder.signed8).toInt32)
    | _ => do pure (reg, .memory rm (← Decoder.signed32))

/-- Two registers: the register operand, and the other one. -/
def registerPair (l : Lead) : Decoder (Register × Register) := do
  match ← operands l with
  | (reg, .register rm) => pure (.ofParts reg l.reg, rm)
  | _ => failure

/-- A register operand and a place in memory. -/
def registerAndMemory (l : Lead) : Decoder (Register × Register × Int32) := do
  match ← operands l with
  | (reg, .memory base offset) => pure (.ofParts reg l.reg, base, offset)
  | _ => failure

/-- A register that stands beside three bits that belong to the opcode. -/
def digitAndRegister (l : Lead) : Decoder (Nat × Register) := do
  match ← operands l with
  | (digit, .register rm) => pure (digit, rm)
  | _ => failure

/-- A load into a register. -/
def loadOf (access : Access) (l : Lead) : Decoder Inst := do
  let (reg, base, offset) ← registerAndMemory l
  pure (.load access reg base offset)

/-- A store of a register. -/
def storeOf (access : Access) (l : Lead) : Decoder Inst := do
  let (reg, base, offset) ← registerAndMemory l
  pure (.store access reg base offset)

/-- The lane-wise arithmetic with a mandatory byte and an opcode. -/
def packedOf? (mandatory : Option UInt8) (opcode : List UInt8) : Option (VectorOp × Lane) :=
  let pairs := VectorOp.all.flatMap fun op => Lane.all.map fun lane => (op, lane)
  pairs.find? fun (op, lane) => packedOpcode? op lane == some (mandatory.toList, opcode)

/-- Lane-wise arithmetic. -/
def packedInst (l : Lead) (opcode : List UInt8) : Decoder Inst := do
  let (op, lane) ← Decoder.ofOption (packedOf? l.mandatory opcode)
  let (dst, rhs) ← registerPair l
  pure (.packed op lane dst rhs)

/-- Instructions whose opcode begins with `0F`. -/
def extendedInst (l : Lead) : Decoder Inst := do
  let opcode ← Decoder.byte
  match l.mandatory, opcode with
  | none, 0xbe => loadOf .i8 l
  | none, 0xbf => loadOf .i16 l
  | none, 0xaf => do
    let (dst, rhs) ← registerPair l
    pure (.imul l.wide dst rhs)
  | none, 0x28 => do
    let (dst, src) ← registerPair l
    pure (.movaps dst src)
  | some 0xf3, 0x10 => loadOf .f32 l
  | some 0xf3, 0x11 => storeOf .f32 l
  | some 0xf3, 0x7e => loadOf .f64 l
  | some 0x66, 0xd6 => storeOf .f64 l
  | some 0xf3, 0x6f => loadOf .v128 l
  | some 0xf3, 0x7f => storeOf .v128 l
  | some 0x66, 0x6e => do
    let (dst, src) ← registerPair l
    pure (.movToVector l.wide dst src)
  | some 0x66, 0x38 => do
    let next ← Decoder.byte
    packedInst l [0x0f, 0x38, next]
  | none, _ | some 0x66, _ => packedInst l [0x0f, opcode]
  | some m, _ => do
    let (dst, rhs) ← registerPair l
    let double := m == 0xf2
    if opcode == 0x51 then pure (.sqrt double dst rhs)
    else
      let op ← Decoder.ofOption (FloatOp.all.find? fun op => floatOpcode op == opcode)
      pure (.scalar op double dst rhs)

/-- Instructions whose opcode holds the low bits of a register. -/
def compactInst (l : Lead) (opcode : UInt8) : Decoder Inst := do
  let r := Register.ofParts opcode.toNat l.rm
  match opcode.toNat / 8 with
  | 10 => pure (.push r)
  | 11 => pure (.pop r)
  | 23 =>
    if l.wide then pure (.movImm64 r (UInt64.ofNat (← Decoder.number 8)))
    else pure (.movImm32 r (UInt32.ofNat (← Decoder.number 4)))
  | 14 | 15 => do
    let c ← Decoder.ofOption (Condition.all.find? fun c => conditionOpcode c == opcode)
    pure (.jumpIf c (← Decoder.signed8))
  | _ => do
    let op ← Decoder.ofOption (Alu.all.find? fun op => op.opcode == opcode)
    let (rhs, dst) ← registerPair l
    pure (.alu op l.wide dst rhs)

/-- A move between general purpose registers, or a store of one. -/
def moveInst (l : Lead) : Decoder Inst := do
  match ← operands l with
  | (reg, .register dst) => do
    Decoder.check l.mandatory.isNone
    pure (.movReg l.wide dst (.ofParts reg l.reg))
  | (reg, .memory base offset) => do
    let access ← Decoder.ofOption (match l.mandatory with
      | none => some (if l.wide then Access.i64 else .i32)
      | some 0x66 => some .i16
      | _ => none)
    pure (.store access (.ofParts reg l.reg) base offset)

/-- Takes bytes off the stack pointer. -/
def stackInst (l : Lead) (bytes : Decoder UInt32) : Decoder Inst := do
  let (digit, r) ← digitAndRegister l
  Decoder.check (l.wide && digit == 5 && r == rsp)
  pure (.subStack (← bytes))

/-- The instruction behind an opcode. -/
def opcodeInst (l : Lead) (opcode : UInt8) : Decoder Inst :=
  match opcode with
  | 0x0f => extendedInst l
  | 0x89 => moveInst l
  | _ => do
    Decoder.check l.mandatory.isNone
    match opcode with
    | 0xc3 => pure .ret
    | 0x81 => stackInst l do pure (UInt32.ofNat (← Decoder.number 4))
    | 0x83 => stackInst l do pure (← Decoder.byte).toUInt32
    | 0x8b => loadOf (if l.wide then .i64 else .i32) l
    | 0x88 => storeOf .i8 l
    | 0xd3 => do
      let (digit, r) ← digitAndRegister l
      let s ← Decoder.ofOption (Shift.all.find? fun s => s.digit == digit)
      pure (.shift s l.wide r)
    | 0xf7 => do
      let (digit, r) ← digitAndRegister l
      Decoder.check (digit == 3)
      pure (.neg l.wide r)
    | 0xff => do
      let (digit, r) ← digitAndRegister l
      match digit with
      | 2 => pure (.callReg r)
      | 4 => pure (.jumpReg r)
      | _ => failure
    | 0xe9 => do pure (.jump (← Decoder.signed32))
    | 0xe8 => do pure (.call (← Decoder.signed32))
    | _ => compactInst l opcode

/-- The instruction at the front of some bytes. -/
def instruction : Decoder Inst := do
  let (l, opcode) ← lead
  opcodeInst l opcode

/-- The instruction at the front of some bytes, and how many bytes it has. -/
def decode? (bytes : List UInt8) : Option (Inst × Nat) :=
  (instruction bytes).map fun (i, rest) => (i, bytes.length - rest.length)

end TreeCode.X64
