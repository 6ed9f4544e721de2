import TreeCode.Source.Expr
import TreeCode.Source.ParseError

/-!
# Reading expressions

`Expr.ofText` reads a text that holds exactly one expression.  Expressions nest at most
`maxDepth` deep.  The functions below take the tokens still to be read and give back those they
leave; `fuel` bounds their number, and `stop` is the place behind the last byte of the text.
-/

namespace TreeCode.Source

/-- How deep parentheses may nest. -/
def maxDepth : Nat := 512

/-- The first character of the next token. -/
def nextChar (tokens : List Lexeme) : Option Char := tokens.head?.map fun t => t.token.leading

/-- The place of the next token, or the end of the text. -/
def nextPosition (stop : Nat) (tokens : List Lexeme) : Nat :=
  (tokens.head?.map Lexeme.position).getD stop

/-- The value of a token that is a value on its own. -/
def readAtom (t : Lexeme) : Except ParseError Value :=
  match t.token with
  | .word name => .ok (.ident name)
  | .text body => .ok (.text body)
  | .openText => .error (.malformed t.position .unterminatedString)
  | .number literal =>
    match literalValue? literal.toList with
    | some v => .ok v
    | none => .error (.malformed t.position (.invalidNumber literal))
  | token => .error (.malformed t.position (.expectedValue (some token.leading)))

/-- Reads the rest of a list whose bracket is at `start`.  Commas between values are optional, but
none stands before the first value. -/
def readList (start : Nat) :
    (fuel : Nat) → (first : Bool) → List Lexeme → Except ParseError (List Value × List Lexeme)
  | 0, _, _ | _, _, [] => .error (.malformed start .unterminatedList)
  | fuel + 1, first, t :: rest =>
    match t.token with
    | .closeBracket => .ok ([], rest)
    | .comma =>
      if first then .error (.malformed t.position (.expectedValue (some ',')))
      else readList start fuel false rest
    | .openBracket => do
      let (inner, rest) ← readList t.position fuel true rest
      let (values, rest) ← readList start fuel false rest
      .ok (.list inner :: values, rest)
    | _ => do
      let value ← readAtom t
      let (values, rest) ← readList start fuel false rest
      .ok (value :: values, rest)

/-- Reads a value. -/
def readValue (stop fuel : Nat) : List Lexeme → Except ParseError (Value × List Lexeme)
  | [] => .error (.malformed stop (.expectedValue none))
  | t :: rest =>
    if t.token = .openBracket then do
      let (items, rest) ← readList t.position fuel true rest
      .ok (.list items, rest)
    else do
      let value ← readAtom t
      .ok (value, rest)

/-- Reads a field.  A word with an equals sign behind it is a key. -/
def readField (stop fuel : Nat) (tokens : List Lexeme) :
    Except ParseError (Field × List Lexeme) :=
  match tokens with
  | ⟨position, .word key⟩ :: ⟨_, .equals⟩ :: rest => do
    let (value, rest) ← readValue stop fuel rest
    .ok (⟨some key, value, position⟩, rest)
  | tokens => do
    let (value, rest) ← readValue stop fuel tokens
    .ok (⟨none, value, nextPosition stop tokens⟩, rest)

/-- The beginning of an expression: the place of its parenthesis and its head. -/
structure Opening where
  position : Nat
  head : String

/-- Reads a parenthesis and a head below `depth` open parentheses. -/
def readOpening (stop depth : Nat) (tokens : List Lexeme) :
    Except ParseError (Opening × List Lexeme) :=
  match tokens with
  | ⟨position, .openParen⟩ :: rest =>
    if maxDepth ≤ depth then .error (.malformed position .nestingTooDeep)
    else
      match rest with
      | ⟨_, .word head⟩ :: rest => .ok (⟨position, head⟩, rest)
      | rest => .error (.malformed (nextPosition stop rest) (.expectedName (nextChar rest)))
  | tokens => .error (.malformed (nextPosition stop tokens) (.expectedOpen (nextChar tokens)))

/-- What stands between the head of an expression and its closing parenthesis. -/
structure Body where
  fields : List Field
  children : List Expr

/-- Reads the fields and children of an expression and its closing parenthesis, with `depth`
parentheses open. -/
def readBody (stop : Nat) :
    (fuel depth : Nat) → Opening → List Lexeme → Except ParseError (Body × List Lexeme)
  | 0, _, opening, _ | _, _, opening, [] =>
    .error (.malformed stop (.neverClosed opening.head opening.position))
  | fuel + 1, depth, opening, t :: rest =>
    match t.token with
    | .closeParen => .ok (⟨[], []⟩, rest)
    | .openParen => do
      let (inner, rest) ← readOpening stop depth (t :: rest)
      let (body, rest) ← readBody stop fuel (depth + 1) inner rest
      let (others, rest) ← readBody stop fuel depth opening rest
      let child := .expr ⟨inner.head, inner.position, body.fields⟩ body.children
      .ok (⟨others.fields, child :: others.children⟩, rest)
    | _ => do
      let (field, rest) ← readField stop fuel (t :: rest)
      let (others, rest) ← readBody stop fuel depth opening rest
      .ok (⟨field :: others.fields, others.children⟩, rest)

/-- Reads the tokens of a whole text. -/
def Expr.ofTokens (stop : Nat) (tokens : List Lexeme) : Except ParseError Expr := do
  let (opening, rest) ← readOpening stop 0 tokens
  let (body, rest) ← readBody stop tokens.length 1 opening rest
  match rest with
  | [] => .ok (.expr ⟨opening.head, opening.position, body.fields⟩ body.children)
  | t :: _ => .error (.malformed t.position .trailingInput)

/-- Reads a text that holds one expression. -/
def Expr.ofText (text : String) : Except ParseError Expr :=
  let cs := text.toList
  Expr.ofTokens (utf8Length cs) (scan 0 cs)

end TreeCode.Source
