import TreeCode.CodeError
import TreeCode.Convention
import TreeCode.X64.Inst

/-!
# Choosing instructions of x86-64

The pools hold registers that a called method may change: `rax rdx rsi rdi r8 r9 r10`, and the
vector registers 0 to 14.  `rcx` takes shift counts, and `r11` is for passing.  The frame is
addressed from the stack pointer.
-/

namespace TreeCode.X64

/-- Takes the counts of shifts. -/
def rcx : Register := ⟨1, by decide⟩

/-- For passing. -/
def r11 : Register := ⟨11, by decide⟩

/-- The second register of the pool, and the third argument. -/
def rdx : Register := ⟨2, by decide⟩

/-- The third register of the pool, and the second argument. -/
def rsi : Register := ⟨6, by decide⟩

/-- The fourth register of the pool, and the first argument. -/
def rdi : Register := ⟨7, by decide⟩

/-- The fifth register of the pool, and the fifth argument. -/
def r8 : Register := ⟨8, by decide⟩

/-- The sixth register of the pool, and the last argument. -/
def r9 : Register := ⟨9, by decide⟩

/-- The last register of the pool. -/
def r10 : Register := ⟨10, by decide⟩

/-- The general purpose pool. -/
def generalPool : List Register := [rax, rdx, rsi, rdi, r8, r9, r10]

theorem length_generalPool : generalPool.length = Isa.x64.pool .general := rfl

/-- The general purpose argument registers. -/
def generalArguments : List Register := [rdi, rsi, rdx, rcx, r8, r9]

theorem length_generalArguments : generalArguments.length = Isa.x64.convention.general := rfl

/-- The size of the pool of vector registers, which begins with register 0. -/
def vectorPool : Nat := Isa.x64.pool .vector

/-- Number of vector registers that pass arguments, from register 0 on. -/
def vectorArguments : Nat := Isa.x64.convention.vector

/-- A register of the hardware with its bank. -/
structure Located where
  bank : Bank
  number : Register
  deriving DecidableEq, Repr

/-- A hardware register in messages. -/
def Located.hardware (l : Located) : Hardware :=
  match l.bank with
  | .general => .general l.number.val
  | .vector => .xmm l.number.val

/-- The general purpose register at an index of the pool. -/
def general (index : Nat) : Except EncodingFault Register :=
  match generalPool[index]? with
  | some r => .ok r
  | none => .error (.outsidePool .x64 (.general index))

/-- The vector register at an index of the pool. -/
def vector (index : Nat) : Except EncodingFault Register :=
  if h : index < vectorPool then .ok ⟨index, by simp only [vectorPool, Isa.pool] at h; omega⟩
  else .error (.outsidePool .x64 (.vector index))

/-- The hardware register of a pool register. -/
def locate : Reg → Except EncodingFault Located
  | .general index => (general index).map (⟨.general, ·⟩)
  | .vector index => (vector index).map (⟨.vector, ·⟩)

/-- The hardware register of an argument. -/
def locateArgument (a : Argument) : Except EncodingFault Located :=
  match a.bank with
  | .general =>
    match generalArguments[a.index]? with
    | some r => .ok ⟨.general, r⟩
    | none => .error (.noArgument a)
  | .vector =>
    if h : a.index < vectorArguments then
      .ok ⟨.vector, ⟨a.index, by simp only [vectorArguments, Isa.convention] at h; omega⟩⟩
    else .error (.noArgument a)

/-- The register that a memory access counts from. -/
def baseRegister : Base → Except EncodingFault Register
  | .reg index => general index
  | .frame => .ok rsp

/-- Refuses an access to a register of another bank. -/
def checkBank (access : Access) (l : Located) : Except EncodingFault Register :=
  if access.bank = l.bank then .ok l.number else .error (.accessHardware access l.hardware)

/-- Instructions for an integer operation.  Counts go through `cl`. -/
def intInsts (op : IntOp) (wide : Bool) (dst rhs : Register) : List Inst :=
  let byCount (s : Shift) : List Inst := [.movReg false rcx rhs, .shift s wide dst]
  match op with
  | .add => [.alu .add wide dst rhs]
  | .sub => [.alu .sub wide dst rhs]
  | .mul => [.imul wide dst rhs]
  | .and => [.alu .and wide dst rhs]
  | .or => [.alu .or wide dst rhs]
  | .xor => [.alu .xor wide dst rhs]
  | .shl => byCount .shl
  | .shr => byCount .sar
  | .ushr => byCount .shr
  | .rol => byCount .rol
  | .ror => byCount .ror

/-- The move between the result register of a bank and a register that is not it. -/
def resultMove (l : Located) (toResult : Bool) : List Inst :=
  if l.number = rax then []
  else
    let (dst, src) := if toResult then (rax, l.number) else (l.number, rax)
    match l.bank with
    | .general => [.movReg true dst src]
    | .vector => [.movaps dst src]

/-- The beginning of every method. -/
def frameLink : List Inst := [.push rbp, .movReg true rbp rsp]

/-- The end of every method. -/
def epilogue : List Inst := [.movReg true rsp rbp, .pop rbp, .ret]

/-- Makes room for the frame.  A frame of 2^31 bytes or more does not fit the instruction. -/
def frameRoom (bytes : UInt32) : Except EncodingFault (List Inst) :=
  if bytes = 0 then .ok []
  else if bytes < 0x80000000 then .ok [.subStack bytes]
  else .error (.frameSize bytes)

/-- The instructions for an abstract instruction. -/
def select : Instr → Except EncodingFault (List Inst)
  | .prologue frame => do
    let room ← frameRoom frame
    .ok (frameLink ++ room)
  | .epilogue => .ok epilogue
  | .spillArg arg access offset => do
    let l ← locateArgument arg
    let src ← checkBank access l
    .ok [.store access src rsp offset]
  | .loadArg arg access offset => do
    let l ← locateArgument arg
    let dst ← checkBank access l
    .ok [.load access dst rsp offset]
  | .load access dst base offset => do
    let base ← baseRegister base
    let l ← locate dst
    let dst ← checkBank access l
    .ok [.load access dst base offset]
  | .store access src base offset => do
    let base ← baseRegister base
    let l ← locate src
    let src ← checkBank access l
    .ok [.store access src base offset]
  | .movImm dst value wide => do
    let dst ← general dst
    .ok [if wide then .movImm64 dst value.toUInt64 else .movImm32 dst value.toUInt64.toUInt32]
  | .fmovImm dst bits double => do
    let dst ← vector dst
    .ok [if double then .movImm64 r11 bits else .movImm32 r11 bits.toUInt32,
      .movToVector double dst r11]
  | .intOp op wide dst rhs => do
    let dst ← general dst
    let rhs ← general rhs
    .ok (intInsts op wide dst rhs)
  | .intNeg wide dst => do
    let dst ← general dst
    .ok [.neg wide dst]
  | .floatOp op double dst rhs => do
    let dst ← vector dst
    let rhs ← vector rhs
    .ok [.scalar op double dst rhs]
  | .floatSqrt double dst => do
    let dst ← vector dst
    .ok [.sqrt double dst dst]
  | .vectorOp op lane dst rhs => do
    let dst ← vector dst
    let rhs ← vector rhs
    match packedOpcode? op lane with
    | some _ => .ok [.packed op lane dst rhs]
    | none => .error (.noVectorInstruction .x64 op lane)
  | .compare wide lhs rhs => do
    let lhs ← general lhs
    let rhs ← general rhs
    .ok [.alu .cmp wide lhs rhs]
  | .moveResult src => do
    let l ← locate src
    .ok (resultMove l true)
  | .takeResult dst => do
    let l ← locate dst
    .ok (resultMove l false)

/-! ## Transfers -/

/-- Length of a direct jump or call. -/
def directBytes : Nat := 5

/-- Length of a jump or call through a register. -/
def indirectBytes : Nat := 13

/-- Length of a short conditional jump. -/
def conditionBytes : Nat := 2

/-- The distance that a direct jump or call at an address holds: from its end to the target. -/
def distance (here target : UInt64) : Except EncodingFault Int32 :=
  let next := here + 5
  let d := (target - next).toInt64.toInt
  if -2147483648 ≤ d ∧ d ≤ 2147483647 then .ok (Int32.ofInt d)
  else .error (.branchTarget next target)

/-- The jump or call through a register that is set to an address. -/
def viaRegister (call : Bool) (target : UInt64) : List Inst :=
  [.movImm64 r11 target, if call then .callReg r11 else .jumpReg r11]

end TreeCode.X64
