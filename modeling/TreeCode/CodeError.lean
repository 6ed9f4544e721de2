import TreeCode.Flow
import TreeCode.Instr
import TreeCode.Region
import TreeCode.Target.Cpu
import TreeCode.Text.Hex

/-!
# What can go wrong when code is made

Between a method and its machine code stand the checks of control flow, the limits of registers and
code size, the capabilities of the processor, and what the encoding of an instruction set cannot
express.
-/

namespace TreeCode

/-- A register of the hardware, in messages. -/
inductive Hardware where
  | general (number : Nat)
  | xmm (number : Nat)
  deriving DecidableEq, Repr

/-- A hardware register in messages. -/
def Hardware.name : Hardware → String
  | general n => "Gp(" ++ toString n ++ ")"
  | xmm n => "Xmm(" ++ toString n ++ ")"

/-- Name of an instruction set in messages about its registers and instructions. -/
def Isa.title : Isa → String
  | .aarch64 => "AArch64"
  | .x64 => "x86-64"

/-- What an instruction set cannot encode, and misuse of labels. -/
inductive EncodingFault where
  | outsidePool (isa : Isa) (reg : Reg)
  | noArgument (argument : Argument)
  /-- A load or store of a pool register of the other bank. -/
  | accessRegister (access : Access) (reg : Reg)
  /-- A load or store of a hardware register of the other bank. -/
  | accessHardware (access : Access) (reg : Hardware)
  | accessArgument (access : Access) (argument : Argument)
  | frameSize (bytes : UInt32)
  | frameOffset (offset : Int32)
  | noRotateLeft
  | noVectorInstruction (isa : Isa) (op : VectorOp) (lane : Lane)
  /-- A distance that a word branch does not hold, as a 64-bit number. -/
  | branchOffset (delta : UInt64)
  /-- A target too far from the end of a branch instruction. -/
  | branchTarget (next target : UInt64)
  /-- A field of a branch whose label has been bound too far away. -/
  | fixupRange (field : Nat)
  | boundTwice (label : Nat)
  | unknownLabel (label : Nat)
  | neverBound (label : Nat)
  deriving DecidableEq, Repr

namespace EncodingFault

/-- The wording of a fault. -/
def message : EncodingFault → String
  | outsidePool isa reg => reg.name ++ " is outside the " ++ isa.title ++ " register pool"
  | noArgument ⟨.general, index⟩ => "no argument register " ++ toString index
  | noArgument ⟨.vector, index⟩ => "no argument register xmm" ++ toString index
  | accessRegister access reg => access.name ++ " access cannot use " ++ reg.name
  | accessHardware access reg => access.name ++ " access cannot use " ++ reg.name
  | accessArgument access argument =>
    access.name ++ " access cannot use argument " ++ argument.name
  | frameSize bytes => "frame of " ++ toString bytes.toNat ++ " bytes"
  | frameOffset offset => "frame offset " ++ toString offset.toInt ++ " out of range"
  | noRotateLeft => "AArch64 has no rotate-left instruction"
  | noVectorInstruction isa op lane =>
    "no " ++ isa.title ++ " instruction for " ++ op.mnemonic ++ " on " ++ lane.name ++ " lanes"
  | branchOffset delta => "branch offset " ++ Text.hex delta.toNat ++ " out of range"
  | branchTarget next target =>
    "Branch out of range: NextIP: 0x" ++ (Text.hexPadded 16 next.toNat).toUpper ++ " target: 0x"
      ++ (Text.hexPadded 16 target.toNat).toUpper ++ ", diff = "
      ++ toString (target - next).toInt64.toInt ++ ", diff must fit in an Int32"
  | fixupRange field => "rel32 fixup at " ++ Text.hex field ++ " out of range"
  | boundTwice label => "label " ++ toString label ++ " bound twice"
  | unknownLabel label => "unknown label " ++ toString label
  | neverBound label => "label " ++ toString label ++ " never bound"

end EncodingFault

/-- Why there is no code for a node or a method. -/
inductive Obstacle where
  | parameters (types : List DataType)
  | arguments (count : Nat)
  | notAValue
  | callWithoutResult
  | callWithoutTarget
  | branchWithoutTarget
  | noBlock (index : Nat)
  | notAVectorOperation
  /-- The vectors of the processor have another width than the vector types. -/
  | vectorWidth (bits : Nat)
  | integerDivision
  /-- The frame is too large for one adjustment of the stack pointer. -/
  | frame (bytes : UInt32)
  /-- A node lacks an operand, which no text can describe. -/
  | missingOperand
  deriving DecidableEq, Repr

/-- The wording of an obstacle. -/
def Obstacle.message : Obstacle → String
  | parameters types =>
    "parameters [" ++ ", ".intercalate (types.map DataType.name)
      ++ "] cannot all be passed in argument registers"
  | arguments count => toString count ++ " arguments do not fit in argument registers"
  | notAValue => "not a value-producing operation"
  | callWithoutResult => "call without a result used as a value"
  | callWithoutTarget => "call without a target"
  | branchWithoutTarget => "branch without a target"
  | noBlock index => "no block " ++ toString index
  | notAVectorOperation => "not a vector operation"
  | vectorWidth bits => "target vectors are " ++ toString bits ++ " bits wide"
  | integerDivision => "integer vector division"
  | frame bytes =>
    "frame of " ++ toString bytes.toNat ++ " bytes exceeds a single sp adjustment"
  | missingOperand => "missing operand"

/-- What a processor lacks. -/
inductive Capability where
  | feature (f : Feature)
  | vectorInstruction (op : VectorOp) (type : DataType)
  | squareRoot
  | rotation
  deriving DecidableEq, Repr

/-- The wording of a capability. -/
def Capability.message : Capability → String
  | feature f => f.name
  | vectorInstruction op type =>
    "a native " ++ op.mnemonic ++ " instruction for " ++ type.name ++ " lanes"
  | squareRoot => "a hardware square root instruction"
  | rotation => "a rotate instruction"

/-- Why no machine code is made of a method. -/
inductive CodeError where
  | unsupported (opcode : String) (type : DataType) (obstacle : Obstacle)
  | unsupportedCapability (opcode : String) (type : DataType) (capability : Capability)
  | flow (error : FlowError)
  | registerPressure (depth available : Nat)
  | codeTooLarge (size limit : Nat)
  | addressSpace (base : UInt64) (limit : Nat)
  | encoding (fault : EncodingFault)
  /-- Code of another instruction set than the machine's cannot be loaded. -/
  | foreignIsa (target host : Isa)
  | region (error : RegionError)
  deriving DecidableEq, Repr

/-- Name of an instruction set as the name of a machine. -/
def Isa.machineName : Isa → String
  | .aarch64 => "aarch64"
  | .x64 => "x86_64"

namespace CodeError

/-- The wording of an error. -/
def message : CodeError → String
  | unsupported opcode type obstacle =>
    "cannot lower " ++ opcode ++ " of type " ++ type.name ++ ": " ++ obstacle.message
  | unsupportedCapability opcode type capability =>
    opcode ++ " of type " ++ type.name ++ " requires " ++ capability.message
      ++ ", which the target lacks"
  | flow error => error.message
  | registerPressure depth available =>
    "register pressure: expression needs depth " ++ toString depth ++ ", pool holds "
      ++ toString available
  | codeTooLarge size limit =>
    "method needs " ++ toString size ++ " bytes of code, limit is " ++ toString limit
  | addressSpace base limit =>
    toString limit ++ " bytes of code at " ++ Text.hex base.toNat
      ++ " do not fit the address space"
  | encoding fault => "encoding failed: " ++ fault.message
  | foreignIsa target host =>
    "cannot load " ++ target.name ++ " code on a " ++ host.machineName ++ " host"
  | region error => "executable memory: " ++ error.message

end CodeError

end TreeCode
