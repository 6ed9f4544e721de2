import TreeCode.A64.Selection
import TreeCode.X64.Selection

/-!
# The assembler

An assembler turns steps into the bytes of code for a fixed address.  A transfer to a label that is
bound already is encoded at once; one to a label that is not leaves empty fields behind and is
listed as a `Fixup`, and `finish` fills the fields when all labels are bound.  A conditional branch
is a short one on the opposite condition that skips the jump behind it.
-/

namespace TreeCode

/-- A jump whose label was not bound when it was made. -/
structure Fixup where
  /-- Where the jump begins. -/
  place : Nat
  label : Nat
  form : BranchForm
  deriving DecidableEq, Repr

/-- The bytes of an instruction, and why there are no more of them. -/
structure Emission where
  bytes : List UInt8
  failure : Option CodeError

/-! ## Encodings by instruction set -/

/-- The bytes of instructions of x86-64. -/
def X64.encodeAll (insts : List X64.Inst) : List UInt8 := insts.flatMap X64.Inst.encode

/-- The bytes of instructions of AArch64. -/
def A64.encodeAll (insts : List A64.Inst) : List UInt8 :=
  insts.flatMap fun i => wordBytes i.encode

namespace Isa

/-- The bytes of an abstract instruction.  On x86-64 the link to the caller's frame is made before
the size of the frame is looked at. -/
def emission : Isa → Instr → Emission
  | x64, .prologue frame =>
    match X64.frameRoom frame with
    | .ok room => ⟨X64.encodeAll (X64.frameLink ++ room), none⟩
    | .error fault => ⟨X64.encodeAll X64.frameLink, some (.encoding fault)⟩
  | x64, i =>
    match X64.select i with
    | .ok insts => ⟨X64.encodeAll insts, none⟩
    | .error fault => ⟨[], some (.encoding fault)⟩
  | aarch64, i =>
    match A64.select i with
    | .ok insts => ⟨A64.encodeAll insts, none⟩
    | .error e => ⟨[], some e⟩

/-- The address a number of bytes behind another one. -/
def address (base : UInt64) (offset : Nat) : UInt64 := base + UInt64.ofNat offset

/-- Bytes of the conditional branch in front of a jump. -/
def conditionBytes : Isa → Nat
  | aarch64 => A64.conditionBytes
  | x64 => X64.conditionBytes

/-- Length of a jump. -/
def jumpBytes : Isa → BranchForm → Nat
  | aarch64, .direct => A64.directBytes
  | aarch64, .indirect => A64.indirectBytes
  | x64, .direct => X64.directBytes
  | x64, .indirect => X64.indirectBytes

/-- A jump from a place of the code to another one. -/
def jump (isa : Isa) (base : UInt64) (form : BranchForm) (place target : Nat) :
    Except EncodingFault (List UInt8) :=
  match isa, form with
  | x64, .direct => do
    let d ← X64.distance (address base place) (address base target)
    .ok (X64.encodeAll [.jump d])
  | x64, .indirect => .ok (X64.encodeAll (X64.viaRegister false (address base target)))
  | aarch64, .direct => do
    let w ← A64.words (Int64.ofInt ((target : Int) - (place : Int)))
    .ok (A64.encodeAll [.branch w])
  | aarch64, .indirect => .ok (A64.encodeAll (A64.viaRegister false (address base target)))

/-- A jump with empty fields. -/
def openJump : Isa → BranchForm → List UInt8
  | x64, .direct => X64.encodeAll [.jump 0]
  | x64, .indirect => X64.encodeAll (X64.viaRegister false 0)
  | aarch64, .direct => A64.encodeAll [.branch 0]
  | aarch64, .indirect => A64.encodeAll (A64.viaRegister false 0)

/-- A call at a place of the code. -/
def call (isa : Isa) (base : UInt64) (form : BranchForm) (place : Nat) (target : UInt64) :
    Except EncodingFault (List UInt8) :=
  match isa, form with
  | x64, .direct => do
    let d ← X64.distance (address base place) target
    .ok (X64.encodeAll [.call d])
  | x64, .indirect => .ok (X64.encodeAll (X64.viaRegister true target))
  | aarch64, .direct => do
    let w ← A64.words (target.toInt64 - (address base place).toInt64)
    .ok (A64.encodeAll [.call w])
  | aarch64, .indirect => .ok (A64.encodeAll (A64.viaRegister true target))

/-- The conditional branch over a jump that is taken if the condition does not hold. -/
def skip : Isa → Condition → BranchForm → List UInt8
  | x64, c, form =>
    X64.encodeAll [.jumpIf c.invert (Int8.ofNat (jumpBytes x64 form))]
  | aarch64, c, form =>
    A64.encodeAll [.branchIf c.invert (UInt32.ofNat (1 + jumpBytes aarch64 form / 4))]

/-- Fills the field of a direct jump. -/
def fillDirect (isa : Isa) (code : Array UInt8) (place target : Nat) :
    Except EncodingFault (Array UInt8) :=
  match isa with
  | x64 =>
    let field := place + 1
    let d : Int := (target : Int) - ((field + 4 : Nat) : Int)
    if -2147483648 ≤ d ∧ d ≤ 2147483647 then
      .ok (patch code field (wordBytes (UInt32.ofInt d)))
    else .error (.fixupRange field)
  | aarch64 => do
    let w ← A64.words (Int64.ofInt ((target : Int) - (place : Int)))
    .ok (patch code place (wordBytes (wordAt code place ||| (w &&& (0x03ffffff : UInt32)))))

/-- Fills the halfword field of an instruction of AArch64. -/
def fillHalfword (value : UInt64) (place : Nat) (code : Array UInt8) (i : Nat) : Array UInt8 :=
  let slot := place + 4 * i
  let kept := wordAt code slot &&& ~~~((0xffff : UInt32) <<< 5)
  patch code slot (wordBytes (kept ||| (A64.halfword value i <<< 5)))

/-- Fills the fields of a jump through a register with an address. -/
def fillIndirect (isa : Isa) (code : Array UInt8) (place : Nat) (target : UInt64) : Array UInt8 :=
  match isa with
  | x64 => patch code (place + 2) (doubleWordBytes target)
  | aarch64 => [0, 1, 2, 3].foldl (fillHalfword target place) code

end Isa

/-! ## Steps -/

/-- Code in the making. -/
structure Assembler where
  isa : Isa
  /-- The address of the first byte. -/
  base : UInt64
  code : Array UInt8
  /-- The places where labels are bound. -/
  labels : Array (Option Nat)
  fixups : Array Fixup

namespace Assembler

/-- An assembler without code. -/
def new (isa : Isa) (base : UInt64) : Assembler := ⟨isa, base, #[], #[], #[]⟩

/-- Where the next instruction begins. -/
def offset (a : Assembler) : Nat := a.code.size

/-- Where a label is bound. -/
def labelOffset? (a : Assembler) (label : Nat) : Option Nat := (a.labels[label]?).join

/-- Appends bytes. -/
def append (a : Assembler) (bytes : List UInt8) : Assembler :=
  { a with code := bytes.foldl Array.push a.code }

/-- Binds a label here. -/
def bind (a : Assembler) (label : Nat) : Except EncodingFault Assembler :=
  match a.labels[label]? with
  | none => .error (.unknownLabel label)
  | some (some _) => .error (.boundTwice label)
  | some none => .ok { a with labels := a.labels.setIfInBounds label (some a.offset) }

/-- Appends a jump to a label. -/
def jump (a : Assembler) (label : Nat) (form : BranchForm) : Except EncodingFault Assembler :=
  match a.labelOffset? label with
  | some target => do
    let bytes ← a.isa.jump a.base form a.offset target
    .ok (a.append bytes)
  | none =>
    let b := a.append (a.isa.openJump form)
    .ok { b with fixups := b.fixups.push ⟨a.offset, label, form⟩ }

/-- Appends a transfer.  If a conditional jump does not reach, the branch around it stays. -/
def transfer (a : Assembler) (t : Transfer) (form : BranchForm) : Assembler × Option CodeError :=
  let attempt (before : Assembler) : Except EncodingFault Assembler → Assembler × Option CodeError
    | .ok after => (after, none)
    | .error fault => (before, some (.encoding fault))
  match t with
  | .jump label => attempt a (a.jump label form)
  | .branchIf c label =>
    let b := a.append (a.isa.skip c form)
    attempt b (b.jump label form)
  | .call target => attempt a ((a.isa.call a.base form a.offset target).map a.append)

/-- Does a step; if it fails, the assembler is left as the failure leaves it. -/
def step (a : Assembler) : Step → Assembler × Option CodeError
  | .newLabel => ({ a with labels := a.labels.push none }, none)
  | .instr i =>
    let e := a.isa.emission i
    (a.append e.bytes, e.failure)
  | .bind label =>
    match a.bind label with
    | .ok b => (b, none)
    | .error fault => (a, some (.encoding fault))
  | .transfer t form => a.transfer t form

/-- Fills the fields of a fixup. -/
def fill (a : Assembler) (code : Array UInt8) (f : Fixup) : Except EncodingFault (Array UInt8) :=
  match a.labelOffset? f.label with
  | none => .error (.neverBound f.label)
  | some target =>
    match f.form with
    | .direct => a.isa.fillDirect code f.place target
    | .indirect => .ok (a.isa.fillIndirect code f.place (Isa.address a.base target))

/-- The finished code. -/
def finish (a : Assembler) : Except EncodingFault (Array UInt8) :=
  a.fixups.toList.foldlM a.fill a.code

end Assembler

end TreeCode
