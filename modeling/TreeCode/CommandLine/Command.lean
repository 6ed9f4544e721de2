import TreeCode.CommandLine.Arguments
import TreeCode.CommandLine.Report
import TreeCode.Listing
import TreeCode.ObjectFile
import TreeCode.Printing
import TreeCode.Typing

/-!
# Commands

A command reads a method, makes what it is asked for and delivers it.  Files are given as a record
of operations in any monad, so that what a command does is the same wherever its files are.
-/

namespace TreeCode

/-- The processor of the machine: the baseline with the vector multiplication of 32-bit lanes. -/
def Cpu.host : Cpu :=
  let b := Cpu.baseline hostIsa
  ⟨b.logical, b.physical, b.features.insert Feature.sse41.bit, b.sameFamily⟩

namespace CommandLine

/-- What is delivered, and to which file; without one, to the standard output. -/
structure Delivery where
  path : Option String
  bytes : List UInt8
  deriving DecidableEq, Repr

/-- The bytes of a text. -/
def textBytes (s : String) : List UInt8 := s.toUTF8.toList

namespace Arguments

/-- The processor that is named, without the features asked for. -/
def plainCpu (a : Arguments) : Cpu :=
  match a.target with
  | .host => Cpu.host
  | .isa isa => Cpu.baseline isa

/-- The processor to make code for. -/
def cpu (a : Arguments) : Except Failure Cpu :=
  let c := a.plainCpu
  if !a.sse41 then .ok c
  else if c.isa ≠ .x64 then .error .foreignFeature
  else .ok ⟨c.logical, c.physical, c.features.insert Feature.sse41.bit, c.sameFamily⟩

/-- How methods are compiled. -/
def options (a : Arguments) : Options :=
  { Options.default with fallback := if a.scalarize then .scalarize else .fail }

/-- What a command delivers for the text of its input. -/
def deliver (a : Arguments) (cpu : Cpu) (text : String) : Except Failure Delivery := do
  let m ← (Method.parse text).mapError .parse
  let code (base : UInt64) : Except Failure MachineCode :=
    (m.assemble cpu base a.options).mapError .code
  match a.product with
  | .tree => .ok ⟨a.output, textBytes m.render⟩
  | .hex => do
    let code ← code a.base
    .ok ⟨a.output, textBytes code.hexDump⟩
  | .listing => do
    let code ← code a.base
    .ok ⟨a.output, textBytes code.listing⟩
  | .object => do
    let code ← code 0
    .ok ⟨some (a.output.getD (m.symbol ++ ".o")), ObjectFile.write code m.symbol⟩

end Arguments

/-- Files in a monad. -/
structure Files (μ : Type → Type) where
  /-- The text of a file; `-` stands for the standard input. -/
  read : String → μ (Except FileError String)
  write : String → List UInt8 → μ (Except FileError Unit)
  /-- Writes to the standard output. -/
  print : List UInt8 → μ Unit

/-- How a command ends. -/
inductive Ending where
  | done
  | failed (f : Failure)
  | usage (u : Usage)
  deriving DecidableEq, Repr

/-- The exit status. -/
def Ending.status : Ending → UInt32
  | done | usage .help => 0
  | failed _ => 1
  | usage .invalid => 2

/-- The lines that are shown as the reason of an exit status other than 0. -/
def Ending.diagnosis : Ending → String
  | done | usage _ => ""
  | failed f => "Error: " ++ f.report ++ "\n"

variable {μ : Type → Type} [Monad μ]

/-- Brings what is delivered to its place. -/
def Files.bring (files : Files μ) (d : Delivery) : μ Ending := do
  match d.path with
  | none =>
    files.print d.bytes
    pure .done
  | some path =>
    match ← files.write path d.bytes with
    | .ok () => pure .done
    | .error e => pure (.failed (.file e))

/-- Does what some arguments ask for. -/
def Arguments.run (a : Arguments) (files : Files μ) : μ Ending := do
  match a.cpu with
  | .error f => pure (.failed f)
  | .ok cpu =>
    match a.cpuInfo, a.input with
    | true, _ =>
      files.print (textBytes (cpu.render ++ "\n"))
      pure .done
    | false, none => pure (.usage .invalid)
    | false, some input =>
      match ← files.read input with
      | .error e => pure (.failed (.file e))
      | .ok text =>
        match a.deliver cpu text with
        | .error f => pure (.failed f)
        | .ok d => files.bring d

/-- Does what the arguments of a command ask for. -/
def run (files : Files μ) (arguments : List String) : μ Ending :=
  match Arguments.ofList arguments with
  | .error u => pure (.usage u)
  | .ok a => a.run files

end CommandLine

end TreeCode
