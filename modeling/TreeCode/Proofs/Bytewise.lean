import TreeCode.Proofs.Recursion

/-!
# Reading bytes

`Bytewise.read` reads an expression off the bytes of a text, without scanning it first: it knows the
place of the next byte, looks at that byte alone and takes pieces of the text between two places.
What could go wrong on the way is a `Failure` of its own.  A loop is run by `Bytewise.loop`, which
checks that every turn takes at least one byte, and a piece of text is taken by `Bytewise.slice`,
which checks that no character is split.  Heads are cut with `Bytewise.slice` as well, and operands
are taken by their numbers (`Bytewise.lookUp`).

The second half of the module follows the cursors of the grammar: at the place of a cursor, each
function that reads a token or the gap in front of one takes what the grammar says.
-/

namespace TreeCode.Source

open Cursor

/-- Why reading bytes ends without a result. -/
inductive Failure where
  | refused (error : ParseError)
  /-- A piece of text begins or ends inside a character. -/
  | split
  /-- A turn of a loop has taken no byte, or more than there are. -/
  | stuck
  /-- Lists are nested deeper than there is room for. -/
  | exhausted
  /-- An operand is looked up that an expression does not have. -/
  | missing
  deriving DecidableEq, Repr

/-- What a turn of a loop comes to: another one, or the result of the loop. -/
inductive Turn (σ α : Type) where
  | again (state : σ) (position : Nat)
  | exit (result : α) (position : Nat)

namespace Bytewise

variable (text : String)

/-! ## Bytes, pieces and loops -/

/-- The byte at a place, as the character of its number. -/
def peek (position : Nat) : Option Char :=
  text.toByteArray.data[position]?.map fun byte => Char.ofNat byte.toNat

/-- The piece of text between two places. -/
def slice (start stop : Nat) : Except Failure String :=
  if start ≤ stop ∧ String.Pos.Raw.IsValid text ⟨start⟩ ∧ String.Pos.Raw.IsValid text ⟨stop⟩ then
    .ok (String.Pos.Raw.extract text ⟨start⟩ ⟨stop⟩)
  else .error .split

/-- Something is wrong at a place. -/
def refuse {α : Type} (position : Nat) (defect : Defect) : Except Failure α :=
  .error (.refused (.malformed position defect))

/-- Takes turns until one of them ends the loop. -/
def loop {σ α : Type} (turn : σ → Nat → Except Failure (Turn σ α)) (state : σ) (position : Nat) :
    Except Failure (α × Nat) :=
  match turn state position with
  | .error failure => .error failure
  | .ok (.exit result next) => .ok (result, next)
  | .ok (.again state next) =>
    if position < next ∧ next ≤ text.utf8ByteSize then loop turn state next else .error .stuck
termination_by text.utf8ByteSize - position

/-! ## Tokens -/

/-- One byte of a comment, which ends behind its line. -/
def commentTurn (_ : Unit) (position : Nat) : Except Failure (Turn Unit Unit) :=
  match peek text position with
  | none => .ok (.exit () position)
  | some byte =>
    if byte = '\n' then .ok (.exit () (position + 1)) else .ok (.again () (position + 1))

/-- A blank or a comment. -/
def triviaTurn (_ : Unit) (position : Nat) : Except Failure (Turn Unit Unit) :=
  match peek text position with
  | none => .ok (.exit () position)
  | some byte =>
    if byte = ';' then do
      let (_, next) ← loop text (commentTurn text) () position
      .ok (.again () next)
    else if isBlank byte then .ok (.again () (position + 1))
    else .ok (.exit () position)

/-- Skips blanks and comments. -/
def skipTrivia (position : Nat) : Except Failure Nat := do
  let (_, next) ← loop text (triviaTurn text) () position
  .ok next

/-- One byte of a word. -/
def wordTurn (_ : Unit) (position : Nat) : Except Failure (Turn Unit Unit) :=
  match peek text position with
  | none => .ok (.exit () position)
  | some byte =>
    if isWordChar byte then .ok (.again () (position + 1)) else .ok (.exit () position)

/-- Reads a word. -/
def readWord (position : Nat) : Except Failure (String × Nat) :=
  match peek text position with
  | none => refuse position (.expectedName none)
  | some byte =>
    if isWordStart byte then do
      let (_, stop) ← loop text (wordTurn text) () position
      let word ← slice text position stop
      .ok (word, stop)
    else refuse position (.expectedName (some byte))

/-- One byte of the characters between double quotes, with the place of the first quote. -/
def textTurn (start : Nat) (_ : Unit) (position : Nat) : Except Failure (Turn Unit Value) :=
  match peek text position with
  | none => refuse start .unterminatedString
  | some byte =>
    if byte = '"' then do
      let body ← slice text (start + 1) position
      .ok (.exit (.text body) (position + 1))
    else .ok (.again () (position + 1))

/-- One byte of a number that begins at `start`, behind the byte `last`. -/
def numberTurn (start : Nat) (last : Char) (position : Nat) : Except Failure (Turn Char Unit) :=
  match peek text position with
  | none => .ok (.exit () position)
  | some byte =>
    if isWordChar byte || byte == '.' ||
        (isSign byte && (position == start || last == 'e' || last == 'E')) then
      .ok (.again byte (position + 1))
    else .ok (.exit () position)

/-- The digits of a number literal behind its sign; the flag says whether it is a minus. -/
def sliceSign (literal : String) : Except Failure (Bool × String) :=
  match peek literal 0 with
  | some '-' => do
    let digits ← slice literal 1 literal.utf8ByteSize
    .ok (true, digits)
  | some '+' => do
    let digits ← slice literal 1 literal.utf8ByteSize
    .ok (false, digits)
  | _ => .ok (false, literal)

/-- The value of a literal with so many digits behind its sign. -/
def signedValue? (literal : List Char) (negative : Bool) (digits : List Char) : Option Value :=
  match hexDigits? digits with
  | some hex =>
    match hexValue? hex with
    | some n =>
      if n < wordRange then
        let word := Int64.ofInt n
        some (.int (if negative then -word else word))
      else none
    | none => none
  | none =>
    if !digits.isEmpty && digits.all Char.isDigit then
      (decimalInteger? negative (Number.digitsValue digits)).map .int
    else (Number.bits? literal).map .float

/-- Reads a number. -/
def readNumber (position : Nat) : Except Failure (Value × Nat) := do
  let (_, stop) ← loop text (numberTurn text position) '\x00' position
  let literal ← slice text position stop
  let (negative, digits) ← sliceSign literal
  match signedValue? literal.toList negative digits.toList with
  | some v => .ok (v, stop)
  | none => refuse position (.invalidNumber literal)

/-! ## Expressions -/

/-- One value of a list whose bracket is at `start`, or what stands between two of them. -/
def itemTurn (value : Nat → Except Failure (Value × Nat)) (start : Nat) (items : List Value)
    (position : Nat) : Except Failure (Turn (List Value) Value) := do
  let position ← skipTrivia text position
  match peek text position with
  | none => refuse start .unterminatedList
  | some byte =>
    if byte = ']' then .ok (.exit (.list items) (position + 1))
    else if byte = ',' ∧ items ≠ [] then .ok (.again items (position + 1))
    else do
      let (v, next) ← value position
      .ok (.again (items ++ [v]) next)

/-- Reads a value that is no list and whose first byte is given. -/
def readAtom (byte : Char) (position : Nat) : Except Failure (Value × Nat) :=
  if byte = '"' then loop text (textTurn text position) () (position + 1)
  else if isNumberStart byte then readNumber text position
  else if isWordStart byte then do
    let (name, next) ← readWord text position
    .ok (.ident name, next)
  else refuse position (.expectedValue (some byte))

/-- Reads a value; what a list is read with is given the place of its bracket. -/
def readValueWith (readList : Nat → Except Failure (Value × Nat)) (position : Nat) :
    Except Failure (Value × Nat) := do
  let position ← skipTrivia text position
  match peek text position with
  | none => refuse position (.expectedValue none)
  | some byte => if byte = '[' then readList position else readAtom text byte position

/-- Reads a value, with room for so many lists one within the other. -/
def readValue : (room : Nat) → (position : Nat) → Except Failure (Value × Nat)
  | 0, position => readValueWith text (fun _ => .error .exhausted) position
  | room + 1, position =>
    readValueWith text
      (fun start => loop text (itemTurn text (readValue room) start) [] (start + 1)) position

/-- Reads a field. -/
def readField (room position : Nat) : Except Failure (Field × Nat) :=
  if (peek text position).any isWordStart then do
    let (word, next) ← readWord text position
    let next ← skipTrivia text next
    if peek text next = some '=' then
      let (v, next) ← readValue text room (next + 1)
      .ok (⟨some word, v, position⟩, next)
    else .ok (⟨none, .ident word, position⟩, next)
  else do
    let (v, next) ← readValue text room position
    .ok (⟨none, v, position⟩, next)

/-- Takes a parenthesis. -/
def expectOpen (position : Nat) : Except Failure Nat := do
  let position ← skipTrivia text position
  match peek text position with
  | none => refuse position (.expectedOpen none)
  | some byte =>
    if byte = '(' then .ok (position + 1) else refuse position (.expectedOpen (some byte))

/-- Takes the parenthesis of an expression, with its place. -/
def readOpen (position : Nat) : Except Failure (Nat × Nat) := do
  let start ← skipTrivia text position
  let next ← expectOpen text start
  .ok (start, next)

/-- A field, a child or the closing parenthesis of an expression. -/
def bodyTurn (room : Nat) (child : Nat → Except Failure (Expr × Nat)) (opening : Opening)
    (body : Body) (position : Nat) : Except Failure (Turn Body Expr) := do
  let position ← skipTrivia text position
  match peek text position with
  | none => refuse position (.neverClosed opening.head opening.position)
  | some byte =>
    if byte = ')' then
      .ok (.exit (.expr ⟨opening.head, opening.position, body.fields⟩ body.children) (position + 1))
    else if byte = '(' then do
      let (e, next) ← child position
      .ok (.again ⟨body.fields, body.children ++ [e]⟩ next)
    else do
      let (field, next) ← readField text room position
      .ok (.again ⟨body.fields ++ [field], body.children⟩ next)

/-- Reads an expression in which parentheses nest at most `levels` deep. -/
def readExpr (room : Nat) : (levels : Nat) → (position : Nat) → Except Failure (Expr × Nat)
  | 0, position => do
    let (start, _) ← readOpen text position
    refuse start .nestingTooDeep
  | levels + 1, position => do
    let (start, next) ← readOpen text position
    let next ← skipTrivia text next
    let (head, next) ← readWord text next
    loop text (bodyTurn text room (readExpr room levels) ⟨start, head⟩) ⟨[], []⟩ next

/-- Reads a text that holds one expression, with room for so many lists one within the other. -/
def read (room : Nat) : Except Failure Expr := do
  let (e, next) ← readExpr text room maxDepth 0
  let next ← skipTrivia text next
  if next < text.utf8ByteSize then refuse next .trailingInput else .ok e

/-! ## Heads and operands -/

/-- The two parts of a head, cut where its second character begins. -/
def splitHead (head : String) : Except Failure (Option (String × String)) :=
  match head.toList with
  | first :: _ :: _ => do
    let letter ← slice head 0 first.utf8Size
    let stem ← slice head first.utf8Size head.utf8ByteSize
    .ok (some (letter, stem))
  | _ => .ok none

/-- Reads the head of an expression as the name of an opcode. -/
def decode (head : String) : Except Failure (Option (Opcode × Declared)) :=
  match head with
  | "goto" => .ok (some (.goto, .known .noType))
  | "return" => .ok (some (.ret, .known .noType))
  | "call" => .ok (some (.call, .known .noType))
  | _ =>
    match head.toList with
    | 'i' :: 'f' :: rest => .ok (Opcode.decodeCompare? rest)
    | _ => do
      match ← splitHead head with
      | none => .ok none
      | some (letter, stem) =>
        .ok (letter.toList.head?.bind fun ch => Opcode.decodeStemmed? ch stem.toList)

/-- The operands of an expression, looked up one by one after their number has been checked. -/
def lookUp (f : Form) (count : Nat) (operands : List Node) : Except Failure (List Node) :=
  if operands.length = count then
    (List.range count).mapM fun i =>
      match operands[i]? with
      | some operand => .ok operand
      | none => .error .missing
  else refuse f.position (.arity f.head count operands.length)

end Bytewise

/-! ## Characters and bytes -/

section Bytes

variable {text : String} {c c' : Cursor} {piece : List Char} {ch byte : Char}

/-- A byte of a character, as the character of its number: the character itself, or both are
outside ASCII. -/
def PartOf (byte ch : Char) : Prop := byte = ch ∨ byte.utf8Size ≠ 1 ∧ ch.utf8Size ≠ 1

/-- What is so only of ASCII characters is so of a byte if it is of the character. -/
lemma PartOf.class_eq {p : Char → Bool} (hp : ∀ ch, p ch → ch.utf8Size = 1)
    (h : PartOf byte ch) : p byte = p ch := by
  rcases h with rfl | ⟨hbyte, hch⟩
  · rfl
  · rw [Bool.eq_false_iff.mpr (mt (hp byte) hbyte), Bool.eq_false_iff.mpr (mt (hp ch) hch)]

lemma PartOf.eq_iff {mark : Char} (hmark : mark.utf8Size = 1) (h : PartOf byte ch) :
    byte = mark ↔ ch = mark := by
  have hclass := h.class_eq (p := (· == mark)) fun ch hch => by rw [eq_of_beq hch, hmark]
  rw [← beq_iff_eq, hclass, beq_iff_eq]

lemma PartOf.eq_of_ascii (hch : ch.utf8Size = 1) (h : PartOf byte ch) : byte = ch :=
  h.resolve_right fun hsize => hsize.2 hch

lemma partOf_of_mem {b : UInt8} (h : b ∈ String.utf8EncodeChar ch) :
    PartOf (Char.ofNat b.toNat) ch := by
  by_cases hsize : ch.utf8Size = 1
  · rw [String.utf8EncodeChar_eq_singleton hsize, List.mem_singleton] at h
    have hval := UInt32.le_iff_toNat_le.mp (Char.utf8Size_eq_one_iff.mp hsize)
    refine .inl ?_
    rw [h, UInt32.toNat_toUInt8, Nat.mod_eq_of_lt (Nat.lt_of_le_of_lt hval (by decide))]
    exact Char.ofNat_toNat ch
  · have hval : ¬ch.val.toNat ≤ 127 := fun hle =>
      hsize (Char.utf8Size_eq_one_iff.mpr (UInt32.le_iff_toNat_le.mpr hle))
    -- each byte of a longer encoding has its highest bit set
    have hhigh : 128 ≤ b.toNat := by
      simp only [String.utf8EncodeChar, if_neg hval] at h
      split at h
      · simp only [List.mem_cons, List.not_mem_nil, or_false] at h
        rcases h with rfl | rfl <;> simp <;> omega
      split at h
      · simp only [List.mem_cons, List.not_mem_nil, or_false] at h
        rcases h with rfl | rfl | rfl <;> simp <;> omega
      · simp only [List.mem_cons, List.not_mem_nil, or_false] at h
        rcases h with rfl | rfl | rfl | rfl <;> simp <;> omega
    have hvalid : b.toNat.isValidChar := .inl (Nat.lt_trans b.toNat_lt (by decide))
    refine .inr ⟨?_, hsize⟩
    rw [Ne, Char.utf8Size_eq_one_iff, UInt32.le_iff_toNat_le, Char.ofNat, dif_pos hvalid]
    simp only [Char.ofNatAux]
    exact Nat.not_le.mpr hhigh

lemma partOf_leadingByte (ch : Char) : PartOf (leadingByte ch) ch := by
  have hne : String.utf8EncodeChar ch ≠ [] := by
    rw [← List.length_pos_iff, String.length_utf8EncodeChar]
    exact ch.utf8Size_pos
  obtain ⟨b, bs, hbytes⟩ := List.exists_cons_of_ne_nil hne
  have hlead : leadingByte ch = Char.ofNat b.toNat := by rw [leadingByte, hbytes, List.headD_cons]
  rw [hlead]
  exact partOf_of_mem (hbytes ▸ List.mem_cons_self)

lemma length_flatMap_utf8EncodeChar (cs : List Char) :
    (cs.flatMap String.utf8EncodeChar).length = utf8Length cs := by
  induction cs with
  | nil => rfl
  | cons ch cs ih =>
    rw [List.flatMap_cons, List.length_append, String.length_utf8EncodeChar, utf8Length_cons, ih]

lemma utf8Len_eq (cs : List Char) : String.utf8Len cs = utf8Length cs := by
  induction cs with
  | nil => rfl
  | cons ch cs ih => rw [String.utf8Len_cons, utf8Length_cons, ih, Nat.add_comm]

lemma utf8Length_toList (text : String) : utf8Length text.toList = text.utf8ByteSize := by
  rw [← utf8Len_eq, ← String.utf8ByteSize_ofList, String.ofList_toList]

/-! ## Cursors of a text -/

/-- The cursor is a place in the text. -/
def Cursor.In (c : Cursor) (text : String) : Prop := text.toList = c.before ++ c.rest

lemma Cursor.in_start (text : String) : (start text).In text := rfl

lemma Cursor.Spans.cursor_in (h : c.Spans piece c') (hin : c.In text) : c'.In text := by
  rw [Cursor.In, h.before_eq, List.append_assoc, ← h.rest_eq]
  exact hin

/-- A cursor stands between two pieces of text. -/
lemma Cursor.Spans.exists_append {a b : List Char} (h : c.Spans (a ++ b) c') :
    ∃ m, c.Spans a m ∧ m.Spans b c' :=
  ⟨c.after a (b ++ c'.rest), ⟨by rw [h.rest_eq, List.append_assoc]; rfl, rfl⟩,
    ⟨rfl, by rw [h.before_eq, after, List.append_assoc]⟩⟩

lemma Cursor.Spans.position_eq_succ (h : c.Spans [ch] c') (hsize : ch.utf8Size = 1) :
    c'.position = c.position + 1 := by
  rw [h.position_eq, utf8Length_of_ascii (by simpa using hsize), List.length_singleton]

/-- Behind the first character of a piece. -/
lemma Cursor.Spans.exists_behind {rest : List Char} (h : c.Spans (ch :: piece) c')
    (hrest : c.rest = ch :: rest) (hsize : ch.utf8Size = 1) :
    ∃ c₁, c.Spans [ch] c₁ ∧ c₁.Spans piece c' ∧ c₁.rest = rest ∧
      c₁.position = c.position + 1 := by
  obtain ⟨c₁, hfirst, hmore⟩ := exists_append (a := [ch]) h
  exact ⟨c₁, hfirst, hmore, (List.cons.inj (hfirst.rest_eq.symm.trans hrest)).2,
    hfirst.position_eq_succ hsize⟩

lemma Cursor.Spans.position_lt (h : c.Spans (ch :: piece) c') : c.position < c'.position := by
  rw [h.position_eq, utf8Length_cons]
  exact Nat.lt_add_of_pos_right (Nat.lt_add_right _ ch.utf8Size_pos)

lemma Trivia.cursor_in (h : Trivia c c') (hin : c.In text) : c'.In text := by
  induction h with
  | nil => exact hin
  | blank _ spans _ ih | comment _ spans _ ih => exact ih (spans.cursor_in hin)
  | lastComment _ spans => exact spans.cursor_in hin

namespace Cursor.In

/-- The bytes at and behind a cursor are those of the characters behind it. -/
lemma peek_add (hin : c.In text) (i : Nat) :
    Bytewise.peek text (c.position + i) =
      (c.rest.flatMap String.utf8EncodeChar)[i]?.map fun b => Char.ofNat b.toNat := by
  have hdata : text.toByteArray.data =
      (c.before.flatMap String.utf8EncodeChar ++
        c.rest.flatMap String.utf8EncodeChar).toArray := by
    rw [← String.ofList_toList (s := text), String.toByteArray_ofList, hin, ← List.flatMap_append]
    exact List.data_toByteArray
  rw [Bytewise.peek, hdata, List.getElem?_toArray, position,
    ← length_flatMap_utf8EncodeChar, List.getElem?_append_right (Nat.le_add_right _ _),
    Nat.add_sub_cancel_left]

/-- The byte at a cursor is the first one of the character behind it. -/
lemma peek_eq (hin : c.In text) : Bytewise.peek text c.position = c.rest.head?.map leadingByte := by
  have hpeek := hin.peek_add 0
  rw [Nat.add_zero] at hpeek
  rw [hpeek]
  cases c.rest with
  | nil => rfl
  | cons ch rest =>
    have hne : String.utf8EncodeChar ch ≠ [] := by
      rw [← List.length_pos_iff, String.length_utf8EncodeChar]
      exact ch.utf8Size_pos
    obtain ⟨b, bs, hbytes⟩ := List.exists_cons_of_ne_nil hne
    simp [leadingByte, hbytes]

lemma peek_of_ascii {rest : List Char} (hin : c.In text) (hrest : c.rest = ch :: rest)
    (hsize : ch.utf8Size = 1) : Bytewise.peek text c.position = some ch := by
  rw [hin.peek_eq, hrest, List.head?_cons, Option.map_some,
    (partOf_leadingByte ch).eq_of_ascii hsize]

/-- Each byte of a piece of text belongs to one of its characters. -/
lemma exists_peek (hin : c.In text) (hspans : c.Spans piece c') {i : Nat}
    (hi : i < utf8Length piece) :
    ∃ ch ∈ piece, ∃ byte, Bytewise.peek text (c.position + i) = some byte ∧ PartOf byte ch := by
  rw [← length_flatMap_utf8EncodeChar] at hi
  obtain ⟨ch, hch, hb⟩ := List.mem_flatMap.mp (List.getElem_mem hi)
  refine ⟨ch, hch, _, ?_, partOf_of_mem hb⟩
  rw [hin.peek_add, hspans.rest_eq, List.flatMap_append, List.getElem?_append_left hi,
    List.getElem?_eq_getElem hi, Option.map_some]

lemma position_le (hin : c.In text) : c.position ≤ text.utf8ByteSize := by
  rw [← utf8Length_toList, hin, utf8Length_append]
  exact Nat.le_add_right _ _

lemma position_eq_iff (hin : c.In text) : c.position = text.utf8ByteSize ↔ c.rest = [] := by
  rw [← utf8Length_toList, hin, utf8Length_append, position]
  cases c.rest with
  | nil => simp [utf8Length]
  | cons ch rest =>
    have hpos := ch.utf8Size_pos
    simp only [utf8Length_cons, reduceCtorEq, iff_false]
    omega

/-- The place of a cursor is a boundary between characters. -/
lemma isValid (hin : c.In text) : String.Pos.Raw.IsValid text ⟨c.position⟩ := by
  refine String.Pos.Raw.isValid_iff_exists_append.mpr
    ⟨String.ofList c.before, String.ofList c.rest, ?_, ?_⟩
  · rw [← String.ofList_append, ← hin, String.ofList_toList]
  · rw [String.rawEndPos, String.utf8ByteSize_ofList, utf8Len_eq, position]

/-- A piece of text between two cursors splits no character. -/
lemma slice_eq (hin : c.In text) (hspans : c.Spans piece c') :
    Bytewise.slice text c.position c'.position = .ok (String.ofList piece) := by
  have hstop := hspans.position_eq
  have hle : c.position ≤ c'.position := hstop ▸ Nat.le_add_right _ _
  rw [Bytewise.slice, if_pos ⟨hle, hin.isValid, (hspans.cursor_in hin).isValid⟩, hstop,
    ← String.ofList_toList (s := text), hin, hspans.rest_eq, position, ← utf8Len_eq, ← utf8Len_eq,
    ← List.append_assoc, String.extract_of_valid]

end Cursor.In

end Bytes

namespace Bytewise

/-! ## Loops -/

section Loops

variable {text : String} {σ α : Type} {turn : σ → Nat → Except Failure (Turn σ α)} {s s' : σ}
  {p p' : Nat} {a : α} {failure : Failure}

lemma loop_of_error (h : turn s p = .error failure) : loop text turn s p = .error failure := by
  rw [loop, h]

lemma loop_of_exit (h : turn s p = .ok (.exit a p')) : loop text turn s p = .ok (a, p') := by
  rw [loop, h]

lemma loop_of_again (h : turn s p = .ok (.again s' p')) (hlt : p < p')
    (hle : p' ≤ text.utf8ByteSize) : loop text turn s p = loop text turn s' p' := by
  rw [loop, h]
  exact if_pos ⟨hlt, hle⟩

/-- Turns that take a byte each and change nothing else. -/
lemma loop_of_forall_again {n : Nat}
    (h : ∀ i < n, turn s (p + i) = .ok (.again s (p + i + 1))) (hle : p + n ≤ text.utf8ByteSize) :
    loop text turn s p = loop text turn s (p + n) := by
  induction n with
  | zero => rfl
  | succ n ih =>
    rw [ih (fun i hi => h i (Nat.lt_succ_of_lt hi)) (Nat.le_of_succ_le hle),
      loop_of_again (h n (Nat.lt_succ_self n)) (Nat.lt_succ_self _) hle]
    rfl

end Loops

variable {text : String} {c c' : Cursor} {piece : List Char}

/-- Turns over a piece of text of which each byte is taken. -/
lemma loop_of_spans {σ α : Type} {turn : σ → Nat → Except Failure (Turn σ α)} {s : σ}
    (hin : c.In text) (hspans : c.Spans piece c')
    (h : ∀ p, ∀ ch ∈ piece, ∀ byte, peek text p = some byte → PartOf byte ch →
      turn s p = .ok (.again s (p + 1))) :
    loop text turn s c.position = loop text turn s c'.position := by
  have hle := (hspans.cursor_in hin).position_le
  rw [hspans.position_eq] at hle ⊢
  refine loop_of_forall_again (fun i hi => ?_) hle
  obtain ⟨ch, hch, byte, hpeek, hpart⟩ := hin.exists_peek hspans hi
  exact h _ ch hch byte hpeek hpart

/-! ## Blanks and comments -/

/-- A comment up to the end of its line. -/
lemma loop_commentTurn {body : List Char} (hin : c.In text) (hspans : c.Spans (';' :: body) c')
    (hline : '\n' ∉ body) :
    loop text (commentTurn text) () c.position = loop text (commentTurn text) () c'.position := by
  refine loop_of_spans hin hspans fun p ch hch byte hpeek hpart => ?_
  have hne : ch ≠ '\n' := by
    rintro rfl
    rcases List.mem_cons.mp hch with h | h
    · cases h
    · exact hline h
  rw [commentTurn, hpeek]
  exact if_neg (mt (hpart.eq_iff rfl).mp hne)

/-- A turn that skips a comment. -/
lemma triviaTurn_of_comment {rest : List Char} {next : Nat} (hin : c.In text)
    (hrest : c.rest = ';' :: rest)
    (hnext : loop text (commentTurn text) () c.position = .ok ((), next)) :
    triviaTurn text () c.position = .ok (.again () next) := by
  simp only [triviaTurn, hin.peek_of_ascii hrest rfl, if_true, hnext]
  rfl

/-- A comment is skipped together with the end of its line. -/
lemma triviaTurn_of_line {body : List Char} (hin : c.In text)
    (hspans : c.Spans (';' :: (body ++ ['\n'])) c') (hline : '\n' ∉ body) :
    triviaTurn text () c.position = .ok (.again () c'.position) := by
  -- the last turn of the comment takes the end of the line
  obtain ⟨c₁, hbody, hend⟩ := Spans.exists_append (a := ';' :: body) hspans
  have hin₁ := hbody.cursor_in hin
  refine triviaTurn_of_comment hin hspans.rest_eq ?_
  rw [loop_commentTurn hin hbody hline, hend.position_eq]
  refine loop_of_exit ?_
  rw [commentTurn, hin₁.peek_of_ascii hend.rest_eq rfl]
  rfl

/-- A comment is skipped where the text ends with it. -/
lemma triviaTurn_of_lastLine {body : List Char} (hin : c.In text)
    (hspans : c.Spans (';' :: body) c') (hline : '\n' ∉ body) (hend : c'.rest = []) :
    triviaTurn text () c.position = .ok (.again () c'.position) := by
  refine triviaTurn_of_comment hin hspans.rest_eq ?_
  rw [loop_commentTurn hin hspans hline]
  refine loop_of_exit ?_
  rw [commentTurn, (hspans.cursor_in hin).peek_eq, hend]
  rfl

/-- Nothing is skipped where something else begins. -/
lemma triviaTurn_of_stop (hin : c.In text)
    (hstop : ∀ ch ∈ c.rest.head?, isBlank ch = false ∧ ch ≠ ';') :
    triviaTurn text () c.position = .ok (.exit () c.position) := by
  rw [triviaTurn, hin.peek_eq]
  cases hrest : c.rest with
  | nil => rfl
  | cons ch rest =>
    obtain ⟨hblank, hcomment⟩ := hstop ch (by rw [hrest]; rfl)
    have hpart := partOf_leadingByte ch
    have hblank' := (hpart.class_eq fun _ => utf8Size_of_isBlank).trans hblank
    simp only [List.head?_cons, Option.map_some]
    rw [if_neg (mt (hpart.eq_iff rfl).mp hcomment), if_neg (by simp [hblank'])]

/-- Blanks and comments are skipped, up to where something else begins. -/
lemma loop_triviaTurn (h : Trivia c c') (hin : c.In text)
    (hstop : ∀ ch ∈ c'.rest.head?, isBlank ch = false ∧ ch ≠ ';') :
    loop text (triviaTurn text) () c.position = .ok ((), c'.position) := by
  induction h with
  | nil c => exact loop_of_exit (triviaTurn_of_stop hin hstop)
  | @blank c c₁ c₂ ch blank spans _ ih =>
    have hsize := utf8Size_of_isBlank blank
    have hposition := spans.position_eq_succ hsize
    have hin₁ := spans.cursor_in hin
    rw [← ih hin₁ hstop, hposition]
    refine loop_of_again ?_ (Nat.lt_succ_self _) (hposition ▸ hin₁.position_le)
    simp only [triviaTurn, hin.peek_of_ascii spans.rest_eq hsize]
    rw [if_neg (by rintro rfl; cases blank), if_pos blank]
  | comment one_line spans _ ih =>
    have hin₁ := spans.cursor_in hin
    rw [← ih hin₁ hstop]
    exact loop_of_again (triviaTurn_of_line hin spans one_line) spans.position_lt hin₁.position_le
  | lastComment one_line spans at_end =>
    have hin₁ := spans.cursor_in hin
    rw [← loop_of_exit (triviaTurn_of_stop hin₁ hstop)]
    exact loop_of_again (triviaTurn_of_lastLine hin spans one_line at_end) spans.position_lt
      hin₁.position_le

/-- Skipping leads to the next token. -/
lemma skipTrivia_eq (h : Trivia c c') (hin : c.In text)
    (hstop : ∀ ch ∈ c'.rest.head?, isBlank ch = false ∧ ch ≠ ';') :
    skipTrivia text c.position = .ok c'.position := by
  rw [skipTrivia, loop_triviaTurn h hin hstop]
  rfl

/-! ## Tokens -/

/-- A class of ASCII characters contains the byte behind a piece of text if it contains the
character there. -/
lemma any_peek_eq {p : Char → Bool} (hin : c.In text) (hp : ∀ ch, p ch → ch.utf8Size = 1) :
    (peek text c.position).any p = c.rest.head?.any p := by
  rw [hin.peek_eq]
  cases c.rest.head? with
  | none => rfl
  | some ch => exact (partOf_leadingByte ch).class_eq hp

lemma readWord_eq {name : String} (hin : c.In text) (h : Word c name c') :
    readWord text c.position = .ok (name, c'.position) := by
  obtain ⟨ch, run, hname, hstart, hrun⟩ := h.is_word
  have hchars : ∀ ch ∈ name.toList, isWordChar ch := by
    rw [hname]
    exact List.forall_mem_cons.mpr ⟨isWordChar_of_isWordStart hstart, hrun⟩
  have hin' := h.spans.cursor_in hin
  have hloop : loop text (wordTurn text) () c.position = .ok ((), c'.position) := by
    rw [loop_of_spans hin h.spans fun p ch hch byte hpeek hpart => ?_]
    · refine loop_of_exit ?_
      have hstop : (peek text c'.position).any isWordChar = false := by
        rw [any_peek_eq hin' fun _ => utf8Size_of_isWordChar, Option.any_eq_false]
        simpa using h.maximal
      rw [wordTurn]
      cases hpeek : peek text c'.position with
      | none => rfl
      | some byte => exact if_neg (by simpa [hpeek] using hstop)
    · rw [wordTurn, hpeek]
      refine if_pos ?_
      rw [hpart.class_eq fun _ => utf8Size_of_isWordChar, hchars ch hch]
  have hrest : c.rest = ch :: (run ++ c'.rest) := by rw [h.spans.rest_eq, hname, List.cons_append]
  have hsize := utf8Size_of_isWordChar (isWordChar_of_isWordStart hstart)
  simp only [readWord, hin.peek_of_ascii hrest hsize, hstart, if_true, hloop,
    hin.slice_eq h.spans, Except.ok_bind, String.ofList_toList]

/-- Bytes are taken up to a double quote. -/
lemma loop_textTurn_of_spans {start : Nat} {body : List Char} (hin : c.In text)
    (hspans : c.Spans body c') (h : '"' ∉ body) :
    loop text (textTurn text start) () c.position =
      loop text (textTurn text start) () c'.position := by
  refine loop_of_spans hin hspans fun p ch hch byte hpeek hpart => ?_
  have hne : ch ≠ '"' := by
    rintro rfl
    exact h hch
  rw [textTurn, hpeek]
  exact if_neg (mt (hpart.eq_iff rfl).mp hne)

/-- The characters between two double quotes are read. -/
lemma loop_textTurn {body : List Char} (hin : c.In text) (h : Quoted c body c') :
    loop text (textTurn text c.position) () (c.position + 1) =
      .ok (.text (String.ofList body), c'.position) := by
  obtain ⟨c₁, hopens, hbehind⟩ := Spans.exists_append (a := ['"']) h.spans
  obtain ⟨c₂, hbody, hcloses⟩ := hbehind.exists_append
  have hin₁ := hopens.cursor_in hin
  have hin₂ := hbody.cursor_in hin₁
  have hopen := hopens.position_eq_succ rfl
  rw [← hopen, loop_textTurn_of_spans hin₁ hbody h.no_quote]
  refine loop_of_exit ?_
  simp only [textTurn, hin₂.peek_of_ascii hcloses.rest_eq rfl, if_true, ← hopen,
    hin₁.slice_eq hbody, Except.ok_bind, hcloses.position_eq_succ rfl]

/-- A double quote without another one is refused. -/
lemma loop_textTurn_of_openText {rest : List Char} (hin : c.In text) (hrest : c.rest = '"' :: rest)
    (h : '"' ∉ rest) :
    loop text (textTurn text c.position) () (c.position + 1) =
      refuse c.position .unterminatedString := by
  have hopens := spans_after (c := c) ['"'] rest hrest
  have hbody := spans_after (c := c.after ['"'] rest) rest [] (by simp [after])
  have hin₁ := hopens.cursor_in hin
  rw [← hopens.position_eq_succ rfl, loop_textTurn_of_spans hin₁ hbody h]
  refine loop_of_error ?_
  rw [textTurn, (hbody.cursor_in hin₁).peek_eq]
  rfl

lemma utf8Size_of_continues {signs : Bool} {ch : Char}
    (h : isWordChar ch || ch == '.' || (isSign ch && signs)) : ch.utf8Size = 1 := by
  simp only [Bool.or_eq_true, Bool.and_eq_true, beq_iff_eq] at h
  rcases h with (hword | rfl) | ⟨hsign, -⟩
  · exact utf8Size_of_isWordChar hword
  · rfl
  · exact utf8Size_of_isSign hsign

/-- The characters of a number behind its first one are taken. -/
lemma loop_numberTurn {start : Nat} {rest : List Char} (last : Char) (hin : c.In text)
    (hrest : c.rest = rest) (hlt : start < c.position) (hspans : c.Spans (numberRun last rest) c') :
    loop text (numberTurn text start) last c.position = .ok ((), c'.position) := by
  induction rest generalizing c last with
  | nil =>
    have hposition : c'.position = c.position := hspans.position_eq
    rw [hposition]
    refine loop_of_exit ?_
    rw [numberTurn, hin.peek_eq, hrest]
    rfl
  | cons ch rest ih =>
    have hbehind : (c.position == start) = false := beq_false_of_ne (Nat.ne_of_gt hlt)
    rw [numberRun] at hspans
    split at hspans
    · rename_i hch
      have hsize := utf8Size_of_continues hch
      obtain ⟨c₁, hstep, hmore, hrest', hnext⟩ := hspans.exists_behind hrest hsize
      have hin' := hstep.cursor_in hin
      rw [← ih ch hin' hrest' (hnext ▸ Nat.lt_succ_of_lt hlt) hmore, hnext]
      refine loop_of_again ?_ (Nat.lt_succ_self _) (hnext ▸ hin'.position_le)
      simp only [numberTurn, hin.peek_of_ascii hrest hsize, hbehind,
        Bool.false_or, hch, if_true]
    · rename_i hch
      have hposition : c'.position = c.position := hspans.position_eq
      rw [hposition]
      refine loop_of_exit ?_
      simp only [numberTurn, hin.peek_eq, hrest, List.head?_cons, Option.map_some, hbehind,
        Bool.false_or]
      rw [(partOf_leadingByte ch).class_eq
        (p := fun ch => isWordChar ch || ch == '.' || (isSign ch && (last == 'e' || last == 'E')))
        fun _ => utf8Size_of_continues]
      exact if_neg hch

/-- All characters of a number are taken. -/
lemma loop_numberTurn_of_numberRun {literal : List Char} (hin : c.In text)
    (h : NumberRun c literal c') :
    loop text (numberTurn text c.position) '\x00' c.position = .ok ((), c'.position) := by
  obtain ⟨hrest, hstart, hspans⟩ := h
  rename_i ch rest
  have hsize := utf8Size_of_isNumberStart hstart
  obtain ⟨c₁, hstep, hmore, hrest', hnext⟩ := hspans.exists_behind hrest hsize
  have hin' := hstep.cursor_in hin
  have hlt : c.position < c₁.position := hnext ▸ Nat.lt_succ_self _
  rw [← loop_numberTurn ch hin' hrest' hlt hmore, hnext]
  refine loop_of_again ?_ (Nat.lt_succ_self _) (hnext ▸ hin'.position_le)
  simp only [numberTurn, hin.peek_of_ascii hrest hsize]
  refine if_pos ?_
  simp only [isNumberStart, Bool.or_eq_true] at hstart
  rcases hstart with (hdigit | hsign) | hdot
  · simp [isWordChar, Char.isAlphanum, hdigit]
  · simp [hsign]
  · simp [hdot]

/-- The sign of a literal is a character of its own. -/
lemma sliceSign_ofList (literal : List Char) :
    sliceSign (String.ofList literal) =
      .ok ((splitSign literal).1, String.ofList (splitSign literal).2) := by
  have hin : (start (String.ofList literal)).In (String.ofList literal) := in_start _
  have hslice : ∀ {ch digits}, literal = ch :: digits → ch.utf8Size = 1 →
      slice (String.ofList literal) 1 (String.ofList literal).utf8ByteSize =
        .ok (String.ofList digits) := by
    rintro ch digits rfl hsize
    have hsign := spans_after (c := start (String.ofList (ch :: digits))) [ch] digits
      String.toList_ofList
    have hdigits := spans_after (c := (start (String.ofList (ch :: digits))).after [ch] digits)
      digits [] (by simp [after])
    have hin₁ := hsign.cursor_in hin
    have hend := ((hdigits.cursor_in hin₁).position_eq_iff).mpr rfl
    have h := hin₁.slice_eq hdigits
    rwa [hend, hsign.position_eq_succ hsize] at h
  have hpeek : peek (String.ofList literal) 0 = literal.head?.map leadingByte :=
    hin.peek_eq.trans (by rw [start, String.toList_ofList])
  cases literal with
  | nil => simp only [sliceSign, hpeek, List.head?_nil, Option.map_none, splitSign]
  | cons ch digits =>
    have hpart := partOf_leadingByte ch
    simp only [sliceSign, hpeek, List.head?_cons, Option.map_some]
    by_cases hminus : ch = '-'
    · subst hminus
      simp only [hpart.eq_of_ascii rfl, hslice rfl rfl, Except.ok_bind, splitSign]
    by_cases hplus : ch = '+'
    · subst hplus
      simp only [hpart.eq_of_ascii rfl, hslice rfl rfl, Except.ok_bind, splitSign]
    · have hminus' : leadingByte ch ≠ '-' := mt (hpart.eq_iff rfl).mp hminus
      have hplus' : leadingByte ch ≠ '+' := mt (hpart.eq_iff rfl).mp hplus
      split
      · simp_all
      · simp_all
      · unfold splitSign
        split <;> simp_all

lemma literalValue?_eq (literal : List Char) :
    literalValue? literal =
      signedValue? literal (splitSign literal).1 (splitSign literal).2 := rfl

/-- A number is read, or refused as a whole. -/
lemma readNumber_eq {literal : List Char} (hin : c.In text) (h : NumberRun c literal c') :
    readNumber text c.position =
      match literalValue? literal with
      | some v => .ok (v, c'.position)
      | none => refuse c.position (.invalidNumber (String.ofList literal)) := by
  have hspans : c.Spans literal c' := by
    cases h with
    | run _ _ spans => exact spans
  simp only [readNumber, loop_numberTurn_of_numberRun hin h, Except.ok_bind, hin.slice_eq hspans,
    sliceSign_ofList, String.toList_ofList, literalValue?_eq]

end Bytewise

end TreeCode.Source
