import TreeCode.CodeError
import TreeCode.Source.ParseError
import TreeCode.Text.Quoted

/-!
# Reports of failures

A command that fails names the failure with its details, each under the name of what it is.
-/

namespace TreeCode.CommandLine

/-- Why a file could not be read or written. -/
inductive FileError where
  | notFound
  | permissionDenied
  | isDirectory
  /-- The bytes of a file are no text. -/
  | notText
  | other (message : String)
  deriving DecidableEq, Repr

/-- Why a command fails. -/
inductive Failure where
  | parse (e : ParseError)
  | code (e : CodeError)
  | file (e : FileError)
  /-- A feature of x86-64 has been asked for on another target. -/
  | foreignFeature
  deriving DecidableEq, Repr

/-- A name with details. -/
def detailed (name : String) (details : List (String × String)) : String :=
  name ++ " \x7b " ++ ", ".intercalate (details.map fun (key, value) => key ++ ": " ++ value)
    ++ " \x7d"

/-- The report of a parse error. -/
def parseReport : ParseError → String
  | .malformed position defect =>
    detailed "Malformed"
      [("position", toString position), ("message", Text.quoted defect.message)]
  | .typeMismatch opcode expected found =>
    detailed "TypeMismatch"
      [("opcode", Text.quoted opcode), ("expected", Text.quoted expected.message),
        ("found", Text.quoted found.message)]

/-- The report of a defect in the flow of control. -/
def flowReport : FlowError → String
  | .deadCode label index =>
    detailed "DeadCode" [("block", Text.quoted label), ("index", toString index)]
  | .unreachable label => detailed "Unreachable" [("block", Text.quoted label)]
  | .fallsOffEnd label => detailed "FallsOffEnd" [("block", Text.quoted label)]

/-- A refusal with a message and a kind. -/
def refusal (kind message : String) : String :=
  detailed "Error" [("kind", kind), ("message", Text.quoted message)]

/-- The report of a refused write to a region. -/
def regionReport : RegionError → String
  | .occupied => refusal "PermissionDenied" RegionError.occupied.message
  | e => refusal "InvalidInput" e.message

/-- The report of an error in making code. -/
def codeReport : CodeError → String
  | .unsupported opcode type obstacle =>
    detailed "Unsupported"
      [("opcode", Text.quoted opcode), ("ty", type.name), ("reason", Text.quoted obstacle.message)]
  | .unsupportedCapability opcode type capability =>
    detailed "UnsupportedCapability"
      [("opcode", Text.quoted opcode), ("ty", type.name),
        ("capability", Text.quoted capability.message)]
  | .flow e => flowReport e
  | .registerPressure depth available =>
    detailed "RegisterPressure"
      [("depth", toString depth), ("available", toString available)]
  | .codeTooLarge size limit =>
    detailed "CodeTooLarge" [("size", toString size), ("limit", toString limit)]
  | .addressSpace base limit =>
    detailed "AddressSpace" [("base", toString base.toNat), ("limit", toString limit)]
  | .encoding fault => "Encoding(" ++ Text.quoted fault.message ++ ")"
  | .foreignIsa target host =>
    detailed "ForeignIsa"
      [("target", Text.quoted target.name), ("host", Text.quoted host.machineName)]
  | .region e => "ExecutableMemory(" ++ regionReport e ++ ")"

/-- A failure of the operating system. -/
def systemReport (code : Nat) (kind message : String) : String :=
  detailed "Os" [("code", toString code), ("kind", kind), ("message", Text.quoted message)]

/-- The report of a failure with a file. -/
def fileReport : FileError → String
  | .notFound => systemReport 2 "NotFound" "No such file or directory"
  | .permissionDenied => systemReport 13 "PermissionDenied" "Permission denied"
  | .isDirectory => systemReport 21 "IsADirectory" "Is a directory"
  | .notText => refusal "InvalidData" "stream did not contain valid UTF-8"
  | .other message => refusal "Other" message

/-- The report of a failure. -/
def Failure.report : Failure → String
  | parse e => parseReport e
  | code e => codeReport e
  | file e => fileReport e
  | foreignFeature => Text.quoted "--sse41 only applies to x86-64 targets"

end TreeCode.CommandLine
