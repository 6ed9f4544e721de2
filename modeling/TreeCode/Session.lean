import TreeCode.Loading
import TreeCode.Typing

/-!
# Sessions

A session compiles one method after another for one processor and with the same options.  Each
result is what it would be outside of the session; the session adds up what has happened.
-/

namespace TreeCode

/-- What has happened in a session. -/
structure Statistics where
  /-- Methods parsed. -/
  parsed : Nat
  /-- Methods assembled or loaded. -/
  compiled : Nat
  /-- Attempts that failed. -/
  failures : Nat
  /-- Bytes of code of all methods. -/
  codeSize : Nat
  largestSize : Nat
  /-- Name of the first of the largest methods. -/
  largestName : String
  direct : Nat
  indirect : Nat
  scalarized : Nat
  deriving DecidableEq, Repr

namespace Statistics

/-- Nothing has happened. -/
def zero : Statistics := ⟨0, 0, 0, 0, 0, "", 0, 0, 0⟩

/-- A method has been parsed. -/
def addParsed (s : Statistics) : Statistics := { s with parsed := s.parsed + 1 }

/-- An attempt has failed. -/
def addFailure (s : Statistics) : Statistics := { s with failures := s.failures + 1 }

/-- A method has been compiled. -/
def addCode (s : Statistics) (name : String) (code : MachineCode) : Statistics :=
  let larger := s.largestSize < code.bytes.size
  { s with
    compiled := s.compiled + 1
    codeSize := s.codeSize + code.bytes.size
    direct := s.direct + code.direct
    indirect := s.indirect + code.indirect
    scalarized := s.scalarized + code.scalarized
    largestSize := if larger then code.bytes.size else s.largestSize
    largestName := if larger then name else s.largestName }

/-- A report, one line for each number. -/
def render (s : Statistics) : String :=
  "Compilation Session Statistics:\n"
    ++ "  Methods parsed: " ++ toString s.parsed ++ "\n"
    ++ "  Methods compiled: " ++ toString s.compiled ++ "\n"
    ++ "  Failures: " ++ toString s.failures ++ "\n"
    ++ "  Total code size: " ++ toString s.codeSize ++ " bytes\n"
    ++ (if 0 < s.compiled then
        "  Largest method: " ++ s.largestName ++ " (" ++ toString s.largestSize ++ " bytes)\n"
      else "")
    ++ "  Branches: " ++ toString s.direct ++ " direct, " ++ toString s.indirect ++ " indirect\n"
    ++ "  Scalarized vector ops: " ++ toString s.scalarized

end Statistics

/-- Any error on the way from text to loaded code. -/
inductive Error where
  | parse (e : ParseError)
  | code (e : CodeError)
  | cpu (e : CpuError)
  deriving DecidableEq, Repr

/-- The wording of an error. -/
def Error.message : Error → String
  | parse e => e.message
  | code e => e.message
  | cpu e => e.message

/-- A session: what it compiles for, and what has happened. -/
structure Session where
  cpu : Cpu
  options : Options
  statistics : Statistics

namespace Session

/-- A session in which nothing has happened. -/
def new (cpu : Cpu) (options : Options) : Session := ⟨cpu, options, .zero⟩

/-- Notes a failure. -/
def failed (s : Session) : Session := { s with statistics := s.statistics.addFailure }

/-- Parses a text. -/
def parse (s : Session) (text : String) : Except ParseError Method × Session :=
  match Method.parse text with
  | .ok m => (.ok m, { s with statistics := s.statistics.addParsed })
  | .error e => (.error e, s.failed)

/-- Assembles a method for an address. -/
def assemble (s : Session) (m : Method) (base : UInt64) :
    Except CodeError MachineCode × Session :=
  match m.assemble s.cpu base s.options with
  | .ok code => (.ok code, { s with statistics := s.statistics.addCode m.symbol code })
  | .error e => (.error e, s.failed)

/-- Compiles and loads a method. -/
def compile (s : Session) (m : Method) (addresses : Placements) :
    Except CodeError Loaded × Session :=
  match m.load s.cpu s.options addresses with
  | .ok l => (.ok l, { s with statistics := s.statistics.addCode m.symbol l.code })
  | .error e => (.error e, s.failed)

/-- Parses, compiles and loads a text. -/
def compileText (s : Session) (text : String) (addresses : Placements) :
    Except Error Loaded × Session :=
  match s.parse text with
  | (.error e, s) => (.error (.parse e), s)
  | (.ok m, s) =>
    let (result, s) := s.compile m addresses
    (result.mapError .code, s)

end Session

end TreeCode
