import TreeCode.Assembler
import TreeCode.Lowering

/-!
# Machine code for an address

The operations that lowering gives are assembled one after the other for a fixed address.  The form
of each transfer is chosen here.  The target of a jump to a label that is not bound yet is taken to
be as far away as the code may reach, which is the limit that the code has to keep within.
-/

namespace TreeCode

/-- How methods are compiled. -/
structure Options where
  fallback : VectorFallback
  /-- The size of the first region that loading tries. -/
  initialCapacity : Nat
  /-- The most bytes of code of one method. -/
  maxCodeSize : Nat
  deriving DecidableEq, Repr

/-- Nothing is taken apart, and regions grow from a page to 16 MiB. -/
def Options.default : Options := ⟨.fail, 4096, 16777216⟩

/-- Machine code for a fixed address. -/
structure MachineCode where
  isa : Isa
  base : UInt64
  bytes : Array UInt8
  /-- Number of direct jumps and calls. -/
  direct : Nat
  /-- Number of jumps and calls through a register. -/
  indirect : Nat
  /-- Number of lane-wise operations taken apart. -/
  scalarized : Nat
  deriving DecidableEq, Repr

/-- An assembler together with the number of transfers of each form. -/
structure Placement where
  asm : Assembler
  direct : Nat
  indirect : Nat

namespace Placement

/-- The address a number of bytes behind the beginning of the code, if there is one. -/
def address (p : Placement) (limit offset : Nat) : Except CodeError UInt64 :=
  if p.asm.base.toNat + offset < wordRange then .ok (Isa.address p.asm.base offset)
  else .error (.addressSpace p.asm.base limit)

/-- The form of a jump that is `lead` bytes behind the current place. -/
def labelForm (p : Placement) (limit lead label : Nat) : Except CodeError BranchForm := do
  let source ← p.address limit (p.asm.offset + lead)
  let target ← p.address limit ((p.asm.labelOffset? label).getD limit)
  .ok (p.asm.isa.branchLimits.form target source)

/-- The form of a transfer. -/
def form (p : Placement) (limit : Nat) : Transfer → Except CodeError BranchForm
  | .jump label => p.labelForm limit 0 label
  | .branchIf _ label => p.labelForm limit p.asm.isa.conditionBytes label
  | .call target => do
    let source ← p.address limit p.asm.offset
    .ok (p.asm.isa.branchLimits.form target source)

/-- Does a step of the assembler. -/
def step (p : Placement) (s : Step) : Except CodeError Placement :=
  match p.asm.step s with
  | (_, some e) => .error e
  | (asm, none) => .ok { p with asm := asm }

/-- Counts a transfer. -/
def count (p : Placement) : BranchForm → Placement
  | .direct => { p with direct := p.direct + 1 }
  | .indirect => { p with indirect := p.indirect + 1 }

/-- Places an operation behind those before. -/
def place (limit : Nat) (p : Placement) : Op → Except CodeError Placement
  | .instr i => p.step (.instr i)
  | .bind label => p.step (.bind label)
  | .transfer t => do
    let form ← p.form limit t
    (p.count form).step (.transfer t form)

/-- The beginning: no code, and so many labels. -/
def start (isa : Isa) (base : UInt64) (labels : Nat) : Placement :=
  ⟨{ Assembler.new isa base with labels := Array.replicate labels none }, 0, 0⟩

end Placement

/-- The code of the operations that lowering has produced for a method with so many labels.  An
error of the assembler comes before one that ended lowering. -/
def Lowering.assemble (l : Lowering Unit) (isa : Isa) (base : UInt64) (limit labels : Nat) :
    Except CodeError MachineCode := do
  let p ← l.ops.foldlM (Placement.place limit) (Placement.start isa base labels)
  l.result
  let bytes ← p.asm.finish.mapError .encoding
  .ok ⟨isa, base, bytes, p.direct, p.indirect, l.scalarized⟩

namespace Method

/-- The code of a method for an address.  `limit` bounds the distances that jumps allow for; the
code itself may come out longer. -/
def codeAt (m : Method) (cpu : Cpu) (fallback : VectorFallback) (base : UInt64) (limit : Nat) :
    Except CodeError MachineCode := do
  if wordRange ≤ base.toNat + limit then .error (.addressSpace base limit)
  m.checkFlow.mapError .flow
  (m.lower cpu fallback).assemble cpu.isa base limit (m.blocks.length + 1)

/-- Assembles a method for an address, for any instruction set. -/
def assemble (m : Method) (cpu : Cpu) (base : UInt64) (options : Options) :
    Except CodeError MachineCode := do
  let limit := options.maxCodeSize
  let code ← m.codeAt cpu options.fallback base limit
  if limit < code.bytes.size then .error (.codeTooLarge code.bytes.size limit)
  .ok code

end Method

end TreeCode
