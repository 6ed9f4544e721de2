/-!
# Tokens of a text

A text is a sequence of tokens with blanks and comments between them.  A comment runs from a
semicolon to the end of its line.  Every token carries its place, the offset of its first byte in
the UTF-8 encoding of the text.  Words, numbers and strings are as long as they can be; a character
that begins no token is a token of its own, so that scanning never fails.
-/

namespace TreeCode.Source

/-- A token without its place. -/
inductive Token where
  | openParen
  | closeParen
  | openBracket
  | closeBracket
  | comma
  | equals
  | word (name : String)
  /-- The characters between two double quotes. -/
  | text (body : String)
  /-- Characters that look like a number; whether they are one is decided when it is used. -/
  | number (literal : String)
  /-- A double quote that no other one follows. -/
  | openText
  /-- A character that begins no other token. -/
  | other (c : Char)
  deriving DecidableEq, Repr

/-- A token and the place of its first byte. -/
structure Lexeme where
  position : Nat
  token : Token
  deriving DecidableEq, Repr

/-- The character that a byte of a text shows as in a message: the one with the byte's number. -/
def leadingByte (c : Char) : Char :=
  Char.ofNat ((String.utf8EncodeChar c).headD 0).toNat

/-- The first byte of a token, as a message shows it. -/
def Token.leading : Token → Char
  | openParen => '('
  | closeParen => ')'
  | openBracket => '['
  | closeBracket => ']'
  | comma => ','
  | equals => '='
  | word s | number s => s.toList.headD ' '
  | text _ | openText => '"'
  | other c => leadingByte c

/-! ## Character classes

All classes are ASCII; no other character can begin or continue a word or a number. -/

/-- Blanks: space, tab, line feed, form feed, carriage return. -/
def isBlank (c : Char) : Bool :=
  c == ' ' || c == '\t' || c == '\n' || c == '\x0c' || c == '\r'

/-- Characters that a word can begin with. -/
def isWordStart (c : Char) : Bool := c.isAlpha || c == '_'

/-- Characters that a word can go on with. -/
def isWordChar (c : Char) : Bool := c.isAlphanum || c == '_'

/-- The two signs. -/
def isSign (c : Char) : Bool := c == '-' || c == '+'

/-- Characters that a number can begin with. -/
def isNumberStart (c : Char) : Bool := c.isDigit || isSign c || c == '.'

/-- The part of a text that continues a number after the character `last`.  A sign continues it
only behind the letter of an exponent. -/
def numberRun (last : Char) : List Char → List Char
  | [] => []
  | c :: cs =>
    if isWordChar c || c == '.' || (isSign c && (last == 'e' || last == 'E')) then
      c :: numberRun c cs
    else []

/-- Number of bytes of a list of characters in UTF-8. -/
def utf8Length (cs : List Char) : Nat := cs.foldl (fun n c => n + c.utf8Size) 0

theorem length_dropWhile_le {α : Type} (p : α → Bool) (l : List α) :
    (l.dropWhile p).length ≤ l.length :=
  (List.dropWhile_sublist p).length_le

/-- The tokens of single characters. -/
def punctuation? : Char → Option Token
  | '(' => some .openParen
  | ')' => some .closeParen
  | '[' => some .openBracket
  | ']' => some .closeBracket
  | ',' => some .comma
  | '=' => some .equals
  | _ => none

/-- The tokens of a text that begins at the given place. -/
def scan (position : Nat) (cs : List Char) : List Lexeme :=
  match cs with
  | [] => []
  | c :: rest =>
    if isBlank c then scan (position + 1) rest
    else if c == ';' then
      let comment := rest.takeWhile (· != '\n')
      scan (position + 1 + utf8Length comment) (rest.dropWhile (· != '\n'))
    else if isWordStart c then
      let name := c :: rest.takeWhile isWordChar
      ⟨position, .word (String.ofList name)⟩
        :: scan (position + name.length) (rest.dropWhile isWordChar)
    else if isNumberStart c then
      let literal := c :: numberRun c rest
      ⟨position, .number (String.ofList literal)⟩
        :: scan (position + literal.length) (rest.drop (numberRun c rest).length)
    else if c == '"' then
      let body := rest.takeWhile (· != '"')
      match h : rest.dropWhile (· != '"') with
      | [] => [⟨position, .openText⟩]
      | _ :: rest' =>
        ⟨position, .text (String.ofList body)⟩ :: scan (position + utf8Length body + 2) rest'
    else
      ⟨position, (punctuation? c).getD (.other c)⟩ :: scan (position + c.utf8Size) rest
termination_by cs.length
decreasing_by
  all_goals simp only [List.length_cons]
  · omega
  · have := length_dropWhile_le (· != '\n') rest
    omega
  · have := length_dropWhile_le isWordChar rest
    omega
  · have := List.length_drop (l := rest) (i := (numberRun c rest).length)
    omega
  · have := length_dropWhile_le (· != '"') rest
    rw [h] at this
    simp only [List.length_cons] at this
    omega
  · omega

end TreeCode.Source
