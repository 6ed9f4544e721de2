import TreeCode.Loading
import TreeCode.Source.Expr

/-!
# Arguments of the command line

A command names an input and says by options what to make of it.  Each option may be given once; a
long option takes its value from the same argument, behind an equals sign, or from the next one.
Behind `--` every argument is an input.
-/

namespace TreeCode.CommandLine

/-- What code is made for. -/
inductive Target where
  | host
  | isa (isa : Isa)
  deriving DecidableEq, Repr

/-- What is made. -/
inductive Product where
  /-- The method as text. -/
  | tree
  | hex
  | listing
  | object
  deriving DecidableEq, Repr

/-- A command. -/
structure Arguments where
  /-- Absent only if the processor is asked for. -/
  input : Option String
  target : Target
  product : Product
  base : UInt64
  scalarize : Bool
  sse41 : Bool
  output : Option String
  cpuInfo : Bool
  deriving DecidableEq, Repr

/-- Why some arguments are no command. -/
inductive Usage where
  | help
  | invalid
  deriving DecidableEq, Repr

/-- The options that have been given so far. -/
structure Given where
  input : Option String
  target : Option Target
  product : Option Product
  base : Option UInt64
  scalarize : Bool
  sse41 : Bool
  output : Option String
  cpuInfo : Bool

namespace Given

/-- Nothing has been given. -/
def none : Given := ⟨.none, .none, .none, .none, false, false, .none, false⟩

/-- The command, if nothing is lacking. -/
def finish (g : Given) : Except Usage Arguments :=
  if g.input.isNone && !g.cpuInfo then .error .invalid
  else
    .ok ⟨g.input, g.target.getD .host, g.product.getD .listing, g.base.getD 0, g.scalarize, g.sse41,
      g.output, g.cpuInfo⟩

/-- Adds an input; there can be one. -/
def addInput (g : Given) (value : String) : Except Usage Given :=
  if g.input.isSome then .error .invalid else .ok { g with input := some value }

end Given

/-! ## Values -/

/-- A number without a sign in base 10. -/
def decimalValue? (digits : List Char) : Option Nat :=
  if !digits.isEmpty && digits.all Char.isDigit then some (Number.digitsValue digits)
  else none

/-- An address in base 10, or in base 16 behind `0x`.  A plus sign may stand before the digits. -/
def address? (text : String) : Option UInt64 :=
  let digits (cs : List Char) : List Char :=
    match cs with
    | '+' :: rest => rest
    | cs => cs
  let value :=
    match text.toList with
    | '0' :: 'x' :: hex | '0' :: 'X' :: hex => Source.hexValue? (digits hex)
    | cs => decimalValue? (digits cs)
  value.bind fun n => if n < wordRange then some (UInt64.ofNat n) else none

/-- A target by its name. -/
def Target.ofName? : String → Option Target
  | "host" => some .host
  | "aarch64" => some (.isa .aarch64)
  | "x86-64" => some (.isa .x64)
  | _ => none

/-- A product by its name. -/
def Product.ofName? : String → Option Product
  | "tree" => some .tree
  | "hex" => some .hex
  | "asm" => some .listing
  | "obj" => some .object
  | _ => none

/-- An option with a value. -/
inductive ValueOption where
  | isa
  | emit
  | base
  | output
  deriving DecidableEq, Repr

/-- An option with a value by its long name. -/
def ValueOption.ofName? : String → Option ValueOption
  | "isa" => some isa
  | "emit" => some emit
  | "base" => some base
  | "output" => some output
  | _ => none

/-- Sets an option that has not been given before. -/
def Given.once {α : Type} (old : Option α) (new : Option α) (set : α → Given) :
    Except Usage Given :=
  match old, new with
  | .none, some a => .ok (set a)
  | _, _ => .error .invalid

/-- Sets an option to a value. -/
def Given.set (g : Given) (option : ValueOption) (value : String) : Except Usage Given :=
  match option with
  | .isa => once g.target (Target.ofName? value) fun t => { g with target := some t }
  | .emit => once g.product (Product.ofName? value) fun p => { g with product := some p }
  | .base => once g.base (address? value) fun a => { g with base := some a }
  | .output =>
    let path := if value.isEmpty then .none else some value
    once g.output path fun p => { g with output := some p }

/-- Sets an option without a value. -/
def Given.flag (g : Given) (name : String) : Except Usage Given :=
  match name with
  | "scalarize" => if g.scalarize then .error .invalid else .ok { g with scalarize := true }
  | "sse41" => if g.sse41 then .error .invalid else .ok { g with sse41 := true }
  | "cpu-info" => if g.cpuInfo then .error .invalid else .ok { g with cpuInfo := true }
  | "help" => .error .help
  | _ => .error .invalid

/-! ## Reading -/

/-- An argument. -/
inductive Word where
  /-- A long option and the value behind an equals sign. -/
  | long (name : String) (value : Option String)
  /-- The option `-o` and what follows in the same argument. -/
  | shortOutput (value : Option String)
  | shortHelp
  /-- Only inputs follow. -/
  | separator
  | input (text : String)
  | unknown
  deriving DecidableEq, Repr

/-- Reads an argument. -/
def Word.ofString (text : String) : Word :=
  match text.toList with
  | ['-', '-'] => separator
  | '-' :: '-' :: rest =>
    let name := String.ofList (rest.takeWhile (· != '='))
    match rest.dropWhile (· != '=') with
    | _ :: value => long name (some (String.ofList value))
    | [] => long name none
  | ['-'] => input text
  | '-' :: 'o' :: rest =>
    match rest with
    | [] => shortOutput none
    | '=' :: value => shortOutput (some (String.ofList value))
    | value => shortOutput (some (String.ofList value))
  | '-' :: 'h' :: _ => shortHelp
  | '-' :: _ => unknown
  | _ => input text

/-- Reads inputs only. -/
def readInputs (g : Given) : List String → Except Usage Given
  | [] => .ok g
  | a :: rest => do
    let g ← g.addInput a
    readInputs g rest

/-- Reads the arguments behind those that have been given. -/
def readWords (g : Given) : List String → Except Usage Given
  | [] => .ok g
  | a :: rest =>
    -- The value of an option is the next argument, which must not be an option itself.
    let valued (option : ValueOption) : Except Usage Given :=
      match rest with
      | [] => .error .invalid
      | value :: rest =>
        match Word.ofString value with
        | .input _ => do
          let g ← g.set option value
          readWords g rest
        | _ => .error .invalid
    match Word.ofString a with
    | .separator => readInputs g rest
    | .shortHelp => .error .help
    | .unknown => .error .invalid
    | .input text => do
      let g ← g.addInput text
      readWords g rest
    | .shortOutput (some value) => do
      let g ← g.set .output value
      readWords g rest
    | .shortOutput none => valued .output
    | .long name value =>
      match ValueOption.ofName? name, value with
      | some option, some value => do
        let g ← g.set option value
        readWords g rest
      | some option, none => valued option
      | none, none => do
        let g ← g.flag name
        readWords g rest
      | none, some _ => .error .invalid

/-- Reads the arguments of a command. -/
def Arguments.ofList (arguments : List String) : Except Usage Arguments := do
  let g ← readWords .none arguments
  g.finish

end TreeCode.CommandLine
