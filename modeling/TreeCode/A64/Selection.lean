import TreeCode.CodeError
import TreeCode.Convention
import TreeCode.A64.Inst

/-!
# Choosing instructions of AArch64

The pools hold registers that a called method may change: `x9` to `x15`, and the vector registers
16 to 31.  `x16` and `x17` are for passing.  Offsets that the load and store instructions cannot
hold are added to the base in `x17`; the frame is only addressed by offsets that they can hold.
-/

namespace TreeCode.A64

/-- Size of the general purpose pool. -/
def generalPool : Nat := Isa.aarch64.pool .general

/-- Size of the pool of vector registers. -/
def vectorPool : Nat := Isa.aarch64.pool .vector

/-- Number of argument registers of either bank, from register 0 on. -/
def argumentRegisters : Nat := 8

/-- The register that passes the first argument or a result, of either bank. -/
def resultRegister : Register := ⟨0, by decide⟩

/-- For passing. -/
def x16 : Register := ⟨16, by decide⟩

/-- For addresses. -/
def x17 : Register := ⟨17, by decide⟩

/-- The general purpose register at an index of the pool. -/
def general (index : Nat) : Except EncodingFault Register :=
  if h : index < generalPool then .ok ⟨9 + index, by simp only [generalPool, Isa.pool] at h; omega⟩
  else .error (.outsidePool .aarch64 (.general index))

/-- The vector register at an index of the pool. -/
def vector (index : Nat) : Except EncodingFault Register :=
  if h : index < vectorPool then .ok ⟨16 + index, by simp only [vectorPool, Isa.pool] at h; omega⟩
  else .error (.outsidePool .aarch64 (.vector index))

/-- The register of an access, which has to be of its bank. -/
def accessRegister (access : Access) (reg : Reg) : Except EncodingFault Register :=
  if access.bank ≠ reg.bank then .error (.accessRegister access reg)
  else
    match reg with
    | .general index => general index
    | .vector index => vector index

/-- The register of an argument, which has to be of the bank of the access. -/
def argumentRegister (access : Access) (a : Argument) : Except EncodingFault Register :=
  if h : a.index < argumentRegisters then
    if access.bank = a.bank then .ok ⟨a.index, by simp only [argumentRegisters] at h; omega⟩
    else .error (.accessArgument access a)
  else .error (.accessArgument access a)

/-- The halfword of a number at an index. -/
def halfword (value : UInt64) (index : Nat) : UInt32 :=
  ((value >>> UInt64.ofNat (16 * index)) &&& 0xffff).toUInt32

/-- Sets a register to a number with an instruction for each halfword that is not zero. -/
def movWide (dst : Register) (value : UInt64) (wide : Bool) : List Inst :=
  let halves := List.range (if wide then 4 else 2)
  let first := (halves.find? fun i => halfword value i != 0).getD 0
  let others := halves.filter fun i => first < i && halfword value i != 0
  .movz wide first (halfword value first) dst
    :: others.map fun i => .movk wide i (halfword value i) dst

/-- Sets a register to a number with an instruction for each halfword. -/
def movAbsolute (dst : Register) (value : UInt64) : List Inst :=
  .movz true 0 (halfword value 0) dst
    :: [1, 2, 3].map fun i => .movk true i (halfword value i) dst

/-- An offset in units of an access, if loads and stores can hold it. -/
def scaled? (access : Access) (offset : Int32) : Option UInt32 :=
  let o := offset.toInt
  if 0 ≤ o ∧ o % access.bytes = 0 ∧ o / access.bytes < 4096 then
    some (UInt32.ofNat (o / access.bytes).toNat)
  else none

/-- A load or store of a register at a base and an offset. -/
def memory (access : Access) (isLoad : Bool) (reg : Register) (base : Base) (offset : Int32) :
    Except EncodingFault (List Inst) := do
  let move (base : Register) (imm : UInt32) : Inst :=
    if isLoad then .load access reg base imm else .store access reg base imm
  match base with
  | .frame =>
    match scaled? access offset with
    | some imm => .ok [move r31 imm]
    | none => .error (.frameOffset offset)
  | .reg index =>
    let base ← general index
    match scaled? access offset with
    | some imm => .ok [move base imm]
    | none =>
      .ok (movWide x17 (UInt64.ofInt offset.toInt) true
        ++ [.data .add true x17 base x17, move x17 0])

/-- The operation of an integer operation, if there is one. -/
def dataOp? : IntOp → Option DataOp
  | .add => some .add
  | .sub => some .sub
  | .mul => some .mul
  | .and => some .and
  | .or => some .or
  | .xor => some .xor
  | .shl => some .lsl
  | .shr => some .asr
  | .ushr => some .lsr
  | .ror => some .ror
  | .rol => none

/-- The largest frame that one adjustment of the stack pointer makes. -/
def maxFrame : UInt32 := 4095

/-- The beginning of every method. -/
def prologue (frame : UInt32) : List Inst :=
  [.pushLink, .addImm framePointer r31 0] ++ (if 0 < frame then [.subImm r31 r31 frame] else [])

/-- The end of every method. -/
def epilogue : List Inst := [.addImm r31 framePointer 0, .popLink, .ret]

/-- The instructions for an abstract instruction, whatever the size of the frame. -/
def selectUnlimited : Instr → Except EncodingFault (List Inst)
  | .prologue frame => .ok (prologue frame)
  | .epilogue => .ok epilogue
  | .spillArg arg access offset => do
    let src ← argumentRegister access arg
    memory access false src .frame offset
  | .loadArg arg access offset => do
    let dst ← argumentRegister access arg
    memory access true dst .frame offset
  | .load access dst base offset => do
    let dst ← accessRegister access dst
    memory access true dst base offset
  | .store access src base offset => do
    let src ← accessRegister access src
    memory access false src base offset
  | .movImm dst value wide => do
    let dst ← general dst
    .ok (movWide dst value.toUInt64 wide)
  | .fmovImm dst bits double => do
    let dst ← vector dst
    .ok (movWide x16 bits double ++ [.movToVector double dst x16])
  | .intOp op wide dst rhs => do
    let dst ← general dst
    let rhs ← general rhs
    match dataOp? op with
    | some op => .ok [.data op wide dst dst rhs]
    | none => .error .noRotateLeft
  | .intNeg wide dst => do
    let dst ← general dst
    .ok [.data .sub wide dst r31 dst]
  | .floatOp op double dst rhs => do
    let dst ← vector dst
    let rhs ← vector rhs
    .ok [.scalar op double dst dst rhs]
  | .floatSqrt double dst => do
    let dst ← vector dst
    .ok [.sqrt double dst dst]
  | .vectorOp op lane dst rhs => do
    let dst ← vector dst
    let rhs ← vector rhs
    match packedPattern? op lane with
    | some _ => .ok [.packed op lane dst dst rhs]
    | none => .error (.noVectorInstruction .aarch64 op lane)
  | .compare wide lhs rhs => do
    let lhs ← general lhs
    let rhs ← general rhs
    .ok [.data .cmp wide r31 lhs rhs]
  | .moveResult (.general index) => do
    let src ← general index
    .ok [.data .or true resultRegister r31 src]
  | .moveResult (.vector index) => do
    let src ← vector index
    .ok [.movVector resultRegister src]
  | .takeResult (.general index) => do
    let dst ← general index
    .ok [.data .or true dst r31 resultRegister]
  | .takeResult (.vector index) => do
    let dst ← vector index
    .ok [.movVector dst resultRegister]

/-- The instructions for an abstract instruction.  A frame is made by one adjustment of the stack
pointer or not at all. -/
def select (i : Instr) : Except CodeError (List Inst) :=
  match i with
  | .prologue frame =>
    if maxFrame < frame then .error (.unsupported "method" .noType (.frame frame))
    else .ok (prologue frame)
  | i => (selectUnlimited i).mapError .encoding

/-! ## Transfers -/

/-- Length of a direct jump or call. -/
def directBytes : Nat := 4

/-- Length of a jump or call through a register. -/
def indirectBytes : Nat := 20

/-- Length of a conditional jump. -/
def conditionBytes : Nat := 4

/-- A distance in words, if a direct jump or call can hold it.  Distances are 64-bit numbers, and
negative ones go backward. -/
def words (delta : Int64) : Except EncodingFault UInt32 :=
  let d := delta.toInt
  if d.tmod 4 = 0 ∧ -33554432 ≤ d.tdiv 4 ∧ d.tdiv 4 < 33554432 then .ok (UInt32.ofInt (d.tdiv 4))
  else .error (.branchOffset delta.toUInt64)

/-- The jump or call through a register that is set to an address. -/
def viaRegister (call : Bool) (target : UInt64) : List Inst :=
  movAbsolute x16 target ++ [if call then .callReg x16 else .branchReg x16]

end TreeCode.A64
