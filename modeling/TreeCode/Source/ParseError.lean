import TreeCode.DataType

/-!
# What can be wrong with a text

A text is refused either at a place, with a `Defect` that says what is wrong there, or for a type
mismatch between an opcode and what it is applied to.
-/

namespace TreeCode

/-- What is wrong at a place of a text. -/
inductive Defect where
  /-- An opening parenthesis is missing; here stands a character, or the text ends. -/
  | expectedOpen (found : Option Char)
  | expectedName (found : Option Char)
  | expectedValue (found : Option Char)
  | nestingTooDeep
  /-- The text ends inside an expression. -/
  | neverClosed (head : String) (position : Nat)
  | unterminatedString
  | unterminatedList
  | invalidNumber (literal : String)
  | trailingInput
  | expectedHead (wanted found : String)
  | unexpectedField (key head : String)
  | unexpectedValue (head : String)
  | notAName (key : String)
  | notAnInteger (key : String)
  | notATypeList
  | missingField (head key : String)
  | unknownType (name : String)
  | expectedTypeName
  | parameterWithoutType
  | noBlocks
  | duplicateLabel (label : String)
  | undefinedLabel (label : String)
  | unknownOpcode (head : String)
  | noValue (head : String)
  | arity (head : String) (expected found : Nat)
  | parameterRange (index : Int64) (count : Nat)
  | fieldOnConstant (head : String)
  | constantNeedsValue (head : String)
  | constantNeedsSingleValue
  | constantRange (value : Int64) (type : DataType)
  | invalidLiteral (head : String)
  | offsetRange (value : Int64)
  | negativeCall (value : Int64)
  deriving DecidableEq, Repr

namespace Defect

/-- What stands at a place, in quotes, or the end of the input. -/
def foundText : Option Char → String
  | some c => "'" ++ c.toString ++ "'"
  | none => "end of input"

/-- A name in single quotes. -/
def quote (name : String) : String := "'" ++ name ++ "'"

/-- The wording of a defect. -/
def message : Defect → String
  | expectedOpen found => "expected '(' but found " ++ foundText found
  | expectedName found => "expected a name but found " ++ foundText found
  | expectedValue found => "expected a value but found " ++ foundText found
  | nestingTooDeep => "nesting too deep"
  | neverClosed head position =>
    "unbalanced parentheses: " ++ quote head ++ " at byte " ++ toString position
      ++ " is never closed"
  | unterminatedString => "unterminated string"
  | unterminatedList => "unterminated list"
  | invalidNumber literal => "invalid number literal " ++ quote literal
  | trailingInput => "trailing input after method"
  | expectedHead wanted found => "expected " ++ quote wanted ++ " but found " ++ quote found
  | unexpectedField key head => "unexpected field " ++ quote key ++ " on " ++ quote head
  | unexpectedValue head => "unexpected value on " ++ quote head
  | notAName key => quote key ++ " must be a name"
  | notAnInteger key => quote key ++ " must be an integer"
  | notATypeList => "'args' must be a list of types"
  | missingField head key => quote head ++ " requires field " ++ quote key
  | unknownType name => "unknown type " ++ quote name
  | expectedTypeName => "expected a type name"
  | parameterWithoutType => "parameter of type " ++ DataType.noType.name
  | noBlocks => "method has no blocks"
  | duplicateLabel label => "duplicate block label " ++ quote label
  | undefinedLabel label => "undefined block label " ++ quote label
  | unknownOpcode head => "unknown opcode " ++ quote head
  | noValue head => quote head ++ " does not produce a value"
  | arity head expected found =>
    quote head ++ " expects " ++ toString expected ++ " children, found " ++ toString found
  | parameterRange index count =>
    "parameter index " ++ toString index.toInt ++ " out of range for " ++ toString count
      ++ " parameters"
  | fieldOnConstant head => "unexpected field on " ++ quote head
  | constantNeedsValue head => quote head ++ " needs a value"
  | constantNeedsSingleValue => "constant takes a single value"
  | constantRange value type =>
    "constant " ++ toString value.toInt ++ " out of range for " ++ type.name
  | invalidLiteral head => "invalid literal for " ++ quote head
  | offsetRange value => "offset " ++ toString value.toInt ++ " out of range"
  | negativeCall value => "call address " ++ toString value.toInt ++ " is negative"

end Defect

/-- What an opcode is applied to, or should be. -/
inductive Operand where
  | ofType (type : DataType)
  | someVector
  | floatVector
  | scalarArgument
  | arguments (count : Nat)
  deriving DecidableEq, Repr

/-- The wording of an operand. -/
def Operand.message : Operand → String
  | ofType type => type.name
  | someVector => "vector type"
  | floatVector => "VectorFloat or VectorDouble"
  | scalarArgument => "scalar argument"
  | arguments count => toString count ++ " arguments"

/-- Why a text is not a method. -/
inductive ParseError where
  /-- Something is wrong at a place, given as an offset in bytes. -/
  | malformed (position : Nat) (defect : Defect)
  | typeMismatch (opcode : String) (expected found : Operand)
  deriving DecidableEq, Repr

/-- The wording of a parse error. -/
def ParseError.message : ParseError → String
  | malformed position defect =>
    "malformed IR at byte " ++ toString position ++ ": " ++ defect.message
  | typeMismatch opcode expected found =>
    "type mismatch in " ++ opcode ++ ": expected " ++ expected.message ++ ", found "
      ++ found.message

end TreeCode
