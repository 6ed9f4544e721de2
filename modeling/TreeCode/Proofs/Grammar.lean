import TreeCode.Proofs.Scanning
import TreeCode.Source.Reader

/-!
# The grammar of expressions

What a text means, without the reader: a derivation leads from one cursor of the text to another and
says what is written between them.

* `Trivia` is what may stand between any two tokens, a run of blanks and comments.
* `Word` and `NumberRun` are as long as they can be.
* `ValueAt`, `FieldAt` and `ExprAt` are values, fields and expressions; the place of an expression
  or a field is the number of bytes in front of its first character.

The second half of the module relates cursors to the tokens that are scanned from them on: a token
that the grammar knows is scanned as that token, and what is scanned is a token of the grammar, an
open string or a stray character (`Cursor.exists_of_lexemes_eq_cons`).
-/

namespace TreeCode.Source

/-- A place in a text: the characters before it and those that are left. -/
structure Cursor where
  before : List Char
  rest : List Char

namespace Cursor

/-- The number of bytes before the cursor. -/
def position (c : Cursor) : Nat := utf8Length c.before

/-- The beginning of a text. -/
def start (text : String) : Cursor := ⟨[], text.toList⟩

/-- The cursor behind a piece of text. -/
def after (c : Cursor) (piece rest : List Char) : Cursor := ⟨c.before ++ piece, rest⟩

/-- From one cursor to the other stands a piece of text. -/
structure Spans (c : Cursor) (piece : List Char) (c' : Cursor) : Prop where
  rest_eq : c.rest = piece ++ c'.rest
  before_eq : c'.before = c.before ++ piece

end Cursor

open Cursor

/-! ## The grammar -/

/-- A run of blanks and comments.  A comment ends with its line or with the text. -/
inductive Trivia : Cursor → Cursor → Prop
  | nil (c : Cursor) : Trivia c c
  | blank {c c₁ c₂ : Cursor} {ch : Char} (blank : isBlank ch) (spans : c.Spans [ch] c₁)
      (more : Trivia c₁ c₂) : Trivia c c₂
  | comment {c c₁ c₂ : Cursor} {body : List Char} (one_line : '\n' ∉ body)
      (spans : c.Spans (';' :: (body ++ ['\n'])) c₁) (more : Trivia c₁ c₂) : Trivia c c₂
  | lastComment {c c₁ : Cursor} {body : List Char} (one_line : '\n' ∉ body)
      (spans : c.Spans (';' :: body) c₁) (at_end : c₁.rest = []) : Trivia c c₁

/-- A word, up to a character that does not go on with it. -/
structure Word (c : Cursor) (name : String) (c' : Cursor) : Prop where
  is_word : IsWord name.toList
  spans : c.Spans name.toList c'
  maximal : ∀ ch ∈ c'.rest.head?, isWordChar ch = false

/-- The characters that may belong to a number, up to one that does not go on with it. -/
inductive NumberRun : Cursor → List Char → Cursor → Prop
  | run {c c' : Cursor} {ch : Char} {rest : List Char} (rest_eq : c.rest = ch :: rest)
      (starts : isNumberStart ch) (spans : c.Spans (ch :: numberRun ch rest) c') :
      NumberRun c (ch :: numberRun ch rest) c'

/-- Characters between two double quotes. -/
structure Quoted (c : Cursor) (body : List Char) (c' : Cursor) : Prop where
  no_quote : '"' ∉ body
  spans : c.Spans ('"' :: (body ++ ['"'])) c'

mutual

/-- A value.  No comma stands in front of the first value of a list. -/
inductive ValueAt : Cursor → Value → Cursor → Prop
  | word {c c' : Cursor} {name : String} (word : Word c name c') : ValueAt c (.ident name) c'
  | number {c c' : Cursor} {literal : List Char} {v : Value} (run : NumberRun c literal c')
      (value : literalValue? literal = some v) : ValueAt c v c'
  | text {c c' : Cursor} {body : List Char} (quoted : Quoted c body c') :
      ValueAt c (.text (String.ofList body)) c'
  | emptyList {c c₁ c₂ c₃ : Cursor} (opens : c.Spans ['['] c₁) (trivia : Trivia c₁ c₂)
      (closes : c₂.Spans [']'] c₃) : ValueAt c (.list []) c₃
  | list {c c₁ c₂ c₃ c₄ : Cursor} {v : Value} {vs : List Value} (opens : c.Spans ['['] c₁)
      (trivia : Trivia c₁ c₂) (first : ValueAt c₂ v c₃) (items : ItemsAt c₃ vs c₄) :
      ValueAt c (.list (v :: vs)) c₄

/-- What follows the first value of a list: commas and values up to the bracket. -/
inductive ItemsAt : Cursor → List Value → Cursor → Prop
  | close {c c₁ c₂ : Cursor} (trivia : Trivia c c₁) (closes : c₁.Spans [']'] c₂) : ItemsAt c [] c₂
  | comma {c c₁ c₂ c₃ : Cursor} {vs : List Value} (trivia : Trivia c c₁) (comma : c₁.Spans [','] c₂)
      (items : ItemsAt c₂ vs c₃) : ItemsAt c vs c₃
  | value {c c₁ c₂ c₃ : Cursor} {v : Value} {vs : List Value} (trivia : Trivia c c₁)
      (value : ValueAt c₁ v c₂) (items : ItemsAt c₂ vs c₃) : ItemsAt c (v :: vs) c₃

end

/-- An equals sign follows, behind blanks and comments. -/
def EqualsFollows (c : Cursor) : Prop := ∃ c₁ c₂, Trivia c c₁ ∧ c₁.Spans ['='] c₂

/-- A field.  A word is a value on its own only where no equals sign follows. -/
inductive FieldAt : Cursor → Field → Cursor → Prop
  | keyed {c c₁ c₂ c₃ c₄ c₅ : Cursor} {key : String} {v : Value} (word : Word c key c₁)
      (trivia : Trivia c₁ c₂) (equals : c₂.Spans ['='] c₃) (trivia' : Trivia c₃ c₄)
      (value : ValueAt c₄ v c₅) : FieldAt c ⟨some key, v, c.position⟩ c₅
  | bare {c c₁ : Cursor} {v : Value} (value : ValueAt c v c₁)
      (not_key : ∀ name, Word c name c₁ → ¬EqualsFollows c₁) : FieldAt c ⟨none, v, c.position⟩ c₁

mutual

/-- An expression with a number of parentheses open around it. -/
inductive ExprAt : Nat → Cursor → Expr → Cursor → Prop
  | expr {depth : Nat} {c c₁ c₂ c₃ c₄ : Cursor} {head : String} {body : Body}
      (nested : depth < maxDepth) (opens : c.Spans ['('] c₁) (trivia : Trivia c₁ c₂)
      (word : Word c₂ head c₃) (body_at : BodyAt (depth + 1) c₃ body c₄) :
      ExprAt depth c (.expr ⟨head, c.position, body.fields⟩ body.children) c₄

/-- Fields and expressions in any order, and a closing parenthesis. -/
inductive BodyAt : Nat → Cursor → Body → Cursor → Prop
  | close {depth : Nat} {c c₁ c₂ : Cursor} (trivia : Trivia c c₁) (closes : c₁.Spans [')'] c₂) :
      BodyAt depth c ⟨[], []⟩ c₂
  | child {depth : Nat} {c c₁ c₂ c₃ : Cursor} {e : Expr} {body : Body} (trivia : Trivia c c₁)
      (expr : ExprAt depth c₁ e c₂) (more : BodyAt depth c₂ body c₃) :
      BodyAt depth c ⟨body.fields, e :: body.children⟩ c₃
  | field {depth : Nat} {c c₁ c₂ c₃ : Cursor} {f : Field} {body : Body} (trivia : Trivia c c₁)
      (field : FieldAt c₁ f c₂) (more : BodyAt depth c₂ body c₃) :
      BodyAt depth c ⟨f :: body.fields, body.children⟩ c₃

end

/-- The text is an expression with nothing but blanks and comments around it. -/
def Derives (text : String) (e : Expr) : Prop :=
  ∃ c₁ c₂ c₃, Trivia (start text) c₁ ∧ ExprAt 0 c₁ e c₂ ∧ Trivia c₂ c₃ ∧ c₃.rest = []

/-! ## Lengths in bytes -/

lemma utf8Length_cons (ch : Char) (cs : List Char) :
    utf8Length (ch :: cs) = ch.utf8Size + utf8Length cs := by
  have hshift : ∀ (cs : List Char) (n : Nat),
      cs.foldl (fun n c => n + c.utf8Size) n = n + utf8Length cs := by
    intro cs
    induction cs with
    | nil => simp [utf8Length]
    | cons c cs ih =>
      intro n
      simp only [utf8Length, List.foldl_cons, Nat.zero_add]
      rw [ih, ih, Nat.add_assoc]
  rw [utf8Length, List.foldl_cons, hshift, Nat.zero_add]

lemma utf8Length_append (a b : List Char) : utf8Length (a ++ b) = utf8Length a + utf8Length b := by
  induction a with
  | nil => simp [utf8Length]
  | cons ch a ih => rw [List.cons_append, utf8Length_cons, utf8Length_cons, ih, Nat.add_assoc]

lemma utf8Length_of_ascii {cs : List Char} (h : ∀ ch ∈ cs, ch.utf8Size = 1) :
    utf8Length cs = cs.length := by
  induction cs with
  | nil => rfl
  | cons ch cs ih =>
    obtain ⟨hch, hcs⟩ := List.forall_mem_cons.mp h
    rw [utf8Length_cons, hch, ih hcs, List.length_cons, Nat.add_comm]

lemma utf8Size_of_isWordChar {ch : Char} (h : isWordChar ch) : ch.utf8Size = 1 := by
  have hval : ch.val ≤ 0x7f := by
    simp only [isWordChar, Char.isAlphanum, Char.isAlpha, Char.isUpper, Char.isLower, Char.isDigit,
      Bool.or_eq_true, Bool.and_eq_true, decide_eq_true_eq, beq_iff_eq] at h
    rcases h with (((h | h) | h) | rfl)
    · exact UInt32.le_trans h.2 (by decide)
    · exact UInt32.le_trans h.2 (by decide)
    · exact UInt32.le_trans h.2 (by decide)
    · decide
  exact if_pos hval

lemma isWordChar_of_isWordStart {ch : Char} (h : isWordStart ch) : isWordChar ch := by
  simp only [isWordStart, isWordChar, Char.isAlphanum, Bool.or_eq_true] at h ⊢
  tauto

lemma utf8Size_of_isSign {ch : Char} (h : isSign ch) : ch.utf8Size = 1 := by
  simp only [isSign, Bool.or_eq_true, beq_iff_eq] at h
  rcases h with rfl | rfl <;> rfl

lemma utf8Size_of_isBlank {ch : Char} (h : isBlank ch) : ch.utf8Size = 1 := by
  simp only [isBlank, Bool.or_eq_true, beq_iff_eq] at h
  rcases h with (((rfl | rfl) | rfl) | rfl) | rfl <;> rfl

lemma utf8Size_of_isNumberStart {ch : Char} (h : isNumberStart ch) : ch.utf8Size = 1 := by
  simp only [isNumberStart, Bool.or_eq_true, beq_iff_eq] at h
  rcases h with (hdigit | hsign) | rfl
  · exact utf8Size_of_isWordChar (by simp [isWordChar, Char.isAlphanum, hdigit])
  · exact utf8Size_of_isSign hsign
  · rfl

lemma utf8Size_of_mem_numberRun {last ch : Char} {cs : List Char} (h : ch ∈ numberRun last cs) :
    ch.utf8Size = 1 := by
  induction cs generalizing last with
  | nil => cases h
  | cons c cs ih =>
    rw [numberRun] at h
    split at h
    · rename_i hc
      simp only [Bool.or_eq_true, Bool.and_eq_true, beq_iff_eq] at hc
      rcases List.mem_cons.mp h with rfl | h
      · rcases hc with (hword | rfl) | ⟨hsign, -⟩
        · exact utf8Size_of_isWordChar hword
        · rfl
        · exact utf8Size_of_isSign hsign
      · exact ih h
    · cases h

lemma exists_append_numberRun (last : Char) (cs : List Char) :
    ∃ rest, cs = numberRun last cs ++ rest := by
  induction cs generalizing last with
  | nil => exact ⟨[], rfl⟩
  | cons c cs ih =>
    rw [numberRun]
    split
    · obtain ⟨rest, hrest⟩ := ih c
      exact ⟨rest, by rw [List.cons_append, ← hrest]⟩
    · exact ⟨c :: cs, rfl⟩

/-! ## Cursors -/

variable {c c' : Cursor} {piece : List Char}

lemma Cursor.spans_after (piece rest : List Char) (h : c.rest = piece ++ rest) :
    c.Spans piece (c.after piece rest) :=
  ⟨h, rfl⟩

namespace Cursor.Spans

lemma position_eq (h : c.Spans piece c') : c'.position = c.position + utf8Length piece := by
  rw [position, h.before_eq, utf8Length_append, position]

/-- A piece leaves less of the text. -/
lemma length_lt {ch : Char} (h : c.Spans (ch :: piece) c') : c'.rest.length < c.rest.length := by
  rw [h.rest_eq, List.length_append, List.length_cons]
  omega

end Cursor.Spans

/-- The tokens of a text from a cursor on. -/
def Cursor.lexemes (c : Cursor) : List Lexeme := scan c.position c.rest

/-! ## What is scanned -/

/-- Up to a character that a text contains. -/
lemma takeWhile_dropWhile_bne {stop : Char} {body : List Char} (rest : List Char)
    (h : stop ∉ body) :
    (body ++ stop :: rest).takeWhile (· != stop) = body ∧
      (body ++ stop :: rest).dropWhile (· != stop) = stop :: rest := by
  have hbody : ∀ ch ∈ body, (ch != stop) = true := fun ch hch => by
    rw [bne_iff_ne]
    rintro rfl
    exact h hch
  rw [List.takeWhile_append_of_pos hbody, List.dropWhile_append_of_pos hbody,
    List.takeWhile_cons_of_neg (by simp), List.dropWhile_cons_of_neg (by simp), List.append_nil]
  exact ⟨rfl, rfl⟩

/-- Up to a character that a text does not contain. -/
lemma takeWhile_dropWhile_bne_of_not_mem {stop : Char} {body : List Char} (h : stop ∉ body) :
    body.takeWhile (· != stop) = body ∧ body.dropWhile (· != stop) = [] := by
  rw [List.takeWhile_eq_self_iff, List.dropWhile_eq_nil_iff]
  refine ⟨fun ch hch => ?_, fun ch hch => ?_⟩ <;>
    · rw [bne_iff_ne]
      rintro rfl
      exact h hch

/-- Blanks and comments are skipped. -/
lemma Trivia.lexemes_eq (h : Trivia c c') : c.lexemes = c'.lexemes := by
  induction h with
  | nil => rfl
  | @blank c c₁ c₂ ch blank spans _ ih =>
    rw [← ih, lexemes, lexemes, spans.rest_eq, spans.position_eq, List.singleton_append, scan,
      if_pos blank, utf8Length_cons, utf8Size_of_isBlank blank]
    rfl
  | @comment c c₁ c₂ body one_line spans _ ih =>
    obtain ⟨htake, hdrop⟩ := takeWhile_dropWhile_bne c₁.rest one_line
    have hrest : c.rest = ';' :: (body ++ '\n' :: c₁.rest) := by simp [spans.rest_eq]
    have hposition : c₁.position = c.position + 1 + utf8Length body + 1 := by
      rw [spans.position_eq, utf8Length_cons, utf8Length_append]
      have hends : (';' : Char).utf8Size = 1 ∧ utf8Length ['\n'] = 1 := ⟨rfl, rfl⟩
      omega
    rw [← ih, lexemes, lexemes, hrest, hposition, scan, if_neg (by decide), if_pos (by decide),
      htake, hdrop, scan, if_pos (by decide)]
  | @lastComment c c₁ body one_line spans at_end =>
    obtain ⟨htake, hdrop⟩ := takeWhile_dropWhile_bne_of_not_mem one_line
    have hend : c₁.lexemes = [] := by rw [lexemes, at_end, scan]
    rw [hend, lexemes, spans.rest_eq, at_end, List.append_nil, scan, if_neg (by decide),
      if_pos (by decide), hdrop, scan]

/-- Blanks and comments end where something else begins. -/
lemma Cursor.exists_trivia (c : Cursor) :
    ∃ c', Trivia c c' ∧ ∀ ch ∈ c'.rest.head?, isBlank ch = false ∧ ch ≠ ';' := by
  induction hn : c.rest.length using Nat.strong_induction_on generalizing c with
  | h n ih =>
    cases hrest : c.rest with
    | nil => exact ⟨c, .nil c, by simp [hrest]⟩
    | cons ch rest =>
      by_cases hblank : isBlank ch
      · have hspans := spans_after [ch] rest hrest
        obtain ⟨c', htrivia, hstop⟩ := ih _ (hn ▸ hspans.length_lt) _ rfl
        exact ⟨c', .blank hblank hspans htrivia, hstop⟩
      by_cases hcomment : ch = ';'
      · subst hcomment
        by_cases hline : '\n' ∈ rest
        · obtain ⟨body, after, rfl, hbody⟩ := List.eq_append_cons_of_mem hline
          have hspans := spans_after (c := c) (';' :: (body ++ ['\n'])) after (by simp [hrest])
          obtain ⟨c', htrivia, hstop⟩ := ih _ (hn ▸ hspans.length_lt) _ rfl
          exact ⟨c', .comment hbody hspans htrivia, hstop⟩
        · have hspans := spans_after (c := c) (';' :: rest) [] (by simp [hrest])
          exact ⟨_, .lastComment hline hspans rfl, by simp [after]⟩
      · exact ⟨c, .nil c, by simp [hrest, hblank, hcomment]⟩

/-- A token of the grammar. -/
inductive TokenAt : Cursor → Token → Cursor → Prop
  | word {c c' : Cursor} {name : String} (word : Word c name c') : TokenAt c (.word name) c'
  | number {c c' : Cursor} {literal : List Char} (run : NumberRun c literal c') :
      TokenAt c (.number (String.ofList literal)) c'
  | text {c c' : Cursor} {body : List Char} (quoted : Quoted c body c') :
      TokenAt c (.text (String.ofList body)) c'
  | punctuation {c c' : Cursor} {ch : Char} {t : Token} (char : punctuation? ch = some t)
      (spans : c.Spans [ch] c') : TokenAt c t c'

lemma not_skipped_of_start {ch : Char} (h : isWordStart ch ∨ isNumberStart ch) :
    ¬isBlank ch ∧ ¬(ch == ';') = true := by
  constructor
  · intro hblank
    obtain ⟨hword, hnumber⟩ := eq_false_of_skipped (.inl hblank)
    simp [hword, hnumber] at h
  · intro hcomment
    obtain ⟨hword, hnumber⟩ := eq_false_of_skipped (.inr (beq_iff_eq.mp hcomment))
    simp [hword, hnumber] at h

lemma Word.lexemes_eq {name : String} (h : Word c name c') :
    c.lexemes = ⟨c.position, .word name⟩ :: c'.lexemes := by
  obtain ⟨⟨ch, run, hname, hstart, hrun⟩, hspans, hmaximal⟩ := h
  obtain ⟨hblank, hcomment⟩ := not_skipped_of_start (.inl hstart)
  have hstop : c'.rest.takeWhile isWordChar = [] ∧ c'.rest.dropWhile isWordChar = c'.rest := by
    cases hrest : c'.rest with
    | nil => exact ⟨rfl, rfl⟩
    | cons ch' rest' => simp [hmaximal ch' (by simp [hrest])]
  have hlength : utf8Length (ch :: run) = (ch :: run).length :=
    utf8Length_of_ascii (List.forall_mem_cons.mpr
      ⟨utf8Size_of_isWordChar (isWordChar_of_isWordStart hstart),
        fun ch' hch' => utf8Size_of_isWordChar (hrun ch' hch')⟩)
  rw [hname] at hspans
  rw [lexemes, lexemes, hspans.position_eq, hspans.rest_eq, List.cons_append, scan, if_neg hblank,
    if_neg hcomment, if_pos hstart, List.takeWhile_append_of_pos hrun,
    List.dropWhile_append_of_pos hrun, hstop.1, hstop.2, List.append_nil, hlength, ← hname]
  simp only [String.ofList_toList]

lemma NumberRun.lexemes_eq {literal : List Char} (h : NumberRun c literal c') :
    c.lexemes = ⟨c.position, .number (String.ofList literal)⟩ :: c'.lexemes := by
  obtain ⟨hrest, hstart, hspans⟩ := h
  rename_i ch rest
  obtain ⟨hblank, hcomment⟩ := not_skipped_of_start (.inr hstart)
  have hafter : rest.drop (numberRun ch rest).length = c'.rest := by
    have hrest' := (List.cons.inj (hrest.symm.trans hspans.rest_eq)).2
    conv_lhs => rw [hrest']
    exact List.drop_left' (by rw [← hrest'])
  have hlength : utf8Length (ch :: numberRun ch rest) = (ch :: numberRun ch rest).length :=
    utf8Length_of_ascii (List.forall_mem_cons.mpr
      ⟨utf8Size_of_isNumberStart hstart, fun _ => utf8Size_of_mem_numberRun⟩)
  rw [lexemes, lexemes, hspans.position_eq, hrest, scan, if_neg hblank, if_neg hcomment,
    if_neg (by simp [isWordStart_eq_false hstart]), if_pos hstart, hafter, hlength]

lemma Quoted.lexemes_eq {body : List Char} (h : Quoted c body c') :
    c.lexemes = ⟨c.position, .text (String.ofList body)⟩ :: c'.lexemes := by
  obtain ⟨htake, hdrop⟩ := takeWhile_dropWhile_bne c'.rest h.no_quote
  have hrest : c.rest = '"' :: (body ++ '"' :: c'.rest) := by simp [h.spans.rest_eq]
  have hposition : c'.position = c.position + utf8Length body + 2 := by
    rw [h.spans.position_eq, utf8Length_cons, utf8Length_append]
    have hends : ('"' : Char).utf8Size = 1 ∧ utf8Length ['"'] = 1 := ⟨rfl, rfl⟩
    omega
  rw [lexemes, lexemes, hrest, hposition, scan, if_neg (by decide), if_neg (by decide),
    if_neg (by decide), if_neg (by decide), if_pos (by decide)]
  split
  · rename_i heq
    rw [hdrop] at heq
    cases heq
  · rename_i heq
    obtain ⟨-, rfl⟩ := List.cons.inj (hdrop.symm.trans heq)
    rw [htake]

/-- The characters of punctuation begin nothing else. -/
lemma isOther_of_punctuation {ch : Char} {t : Token} (h : punctuation? ch = some t) :
    isBlank ch = false ∧ (ch == ';') = false ∧ isWordStart ch = false ∧
      isNumberStart ch = false ∧ (ch == '"') = false ∧ ch.utf8Size = 1 := by
  unfold punctuation? at h
  split at h
  all_goals first | exact ⟨rfl, rfl, rfl, rfl, rfl, rfl⟩ | cases h

lemma Cursor.Spans.lexemes_eq {ch : Char} {t : Token} (h : c.Spans [ch] c')
    (hch : punctuation? ch = some t) : c.lexemes = ⟨c.position, t⟩ :: c'.lexemes := by
  obtain ⟨hblank, hcomment, hword, hnumber, hquote, hsize⟩ := isOther_of_punctuation hch
  rw [lexemes, lexemes, h.rest_eq, h.position_eq, List.singleton_append, scan,
    if_neg (by simp [hblank]), if_neg (by simp [hcomment]), if_neg (by simp [hword]),
    if_neg (by simp [hnumber]), if_neg (by simp [hquote]), hch, utf8Length_cons]
  rfl

/-- A token of the grammar is scanned, at the place where it begins. -/
lemma TokenAt.lexemes_eq {t : Token} (h : TokenAt c t c') :
    c.lexemes = ⟨c.position, t⟩ :: c'.lexemes := by
  cases h with
  | word word => exact word.lexemes_eq
  | number run => exact run.lexemes_eq
  | text quoted => exact quoted.lexemes_eq
  | punctuation char spans => exact spans.lexemes_eq char

/-- The tokens that stand for no text of the grammar. -/
def Token.IsStray (t : Token) : Prop := t = .openText ∨ ∃ ch, t = .other ch

/-- What a cursor stands in front of, blanks and comments apart. -/
inductive Cursor.Ahead (c : Cursor) : Prop
  | nothing (at_end : c.rest = [])
  | token {t : Token} {c' : Cursor} (token : TokenAt c t c')
  | openText {rest : List Char} (rest_eq : c.rest = '"' :: rest) (no_quote : '"' ∉ rest)
  | other {ch : Char} {rest : List Char} (rest_eq : c.rest = ch :: rest)
      (blank : isBlank ch = false) (comment : ch ≠ ';') (word : isWordStart ch = false)
      (number : isNumberStart ch = false) (quote : ch ≠ '"') (punctuation : punctuation? ch = none)

/-- Where neither a blank nor a comment begins stands one of these. -/
lemma Cursor.ahead (hstop : ∀ ch ∈ c.rest.head?, isBlank ch = false ∧ ch ≠ ';') : c.Ahead := by
  cases hrest : c.rest with
  | nil => exact .nothing hrest
  | cons ch rest =>
    obtain ⟨hblank, hcomment⟩ := hstop ch (by rw [hrest]; rfl)
    by_cases hword : isWordStart ch
    · have hname : Word c (String.ofList (ch :: rest.takeWhile isWordChar))
          (c.after (ch :: rest.takeWhile isWordChar) (rest.dropWhile isWordChar)) := by
        refine ⟨?_, ?_, ?_⟩
        · exact ⟨ch, _, String.toList_ofList, hword, fun _ h => List.mem_takeWhile_imp h⟩
        · rw [String.toList_ofList]
          exact spans_after _ _ (by rw [hrest, List.cons_append, List.takeWhile_append_dropWhile])
        · intro ch' hch'
          have hstop := List.head?_dropWhile_not isWordChar rest
          rw [show (rest.dropWhile isWordChar).head? = some ch' from hch'] at hstop
          exact hstop
      exact .token (.word hname)
    by_cases hnumber : isNumberStart ch
    · obtain ⟨rest', hrest'⟩ := exists_append_numberRun ch rest
      exact .token (.number (.run hrest hnumber (spans_after _ rest'
        (by rw [hrest, List.cons_append, ← hrest']))))
    by_cases hquote : ch = '"'
    · subst hquote
      by_cases hclosed : '"' ∈ rest
      · obtain ⟨body, after, rfl, hbody⟩ := List.eq_append_cons_of_mem hclosed
        exact .token (.text ⟨hbody, spans_after _ after (by simp [hrest])⟩)
      · exact .openText hrest hclosed
    cases hpunctuation : punctuation? ch with
    | some t => exact .token (.punctuation hpunctuation (spans_after [ch] rest hrest))
    | none =>
      exact .other hrest hblank hcomment (by simpa using hword) (by simpa using hnumber) hquote
        hpunctuation

lemma Cursor.lexemes_of_openText {rest : List Char} (hrest : c.rest = '"' :: rest)
    (h : '"' ∉ rest) : c.lexemes = [⟨c.position, .openText⟩] := by
  rw [lexemes, hrest, scan, if_neg (by decide), if_neg (by decide), if_neg (by decide),
    if_neg (by decide), if_pos (by decide)]
  split
  · rfl
  · rename_i heq
    rw [(takeWhile_dropWhile_bne_of_not_mem h).2] at heq
    cases heq

lemma Cursor.lexemes_of_other {ch : Char} {rest : List Char} (hrest : c.rest = ch :: rest)
    (hblank : isBlank ch = false) (hcomment : ch ≠ ';') (hword : isWordStart ch = false)
    (hnumber : isNumberStart ch = false) (hquote : ch ≠ '"')
    (hpunctuation : punctuation? ch = none) :
    c.lexemes = ⟨c.position, .other ch⟩ :: (c.after [ch] rest).lexemes := by
  rw [lexemes, hrest, scan, if_neg (by simp [hblank]), if_neg (by simpa using hcomment),
    if_neg (by simp [hword]), if_neg (by simp [hnumber]), if_neg (by simpa using hquote),
    hpunctuation, lexemes, (spans_after [ch] rest hrest).position_eq, utf8Length_cons]
  rfl

/-- What begins behind blanks and comments is a token of the grammar or a stray one. -/
lemma Cursor.exists_token {ch : Char} {rest : List Char} (hrest : c.rest = ch :: rest)
    (hblank : isBlank ch = false) (hcomment : ch ≠ ';') :
    (∃ t c', TokenAt c t c') ∨
      ∃ t more, c.lexemes = ⟨c.position, t⟩ :: more ∧ t.IsStray := by
  have hahead : c.Ahead := ahead fun ch' hch' => by
    rw [hrest] at hch'
    obtain rfl := Option.some.inj hch'
    exact ⟨hblank, hcomment⟩
  cases hahead with
  | nothing at_end => simp [at_end] at hrest
  | token token => exact .inl ⟨_, _, token⟩
  | openText rest_eq no_quote => exact .inr ⟨_, _, lexemes_of_openText rest_eq no_quote, .inl rfl⟩
  | other rest_eq blank comment word number quote punctuation =>
    exact .inr ⟨_, _, lexemes_of_other rest_eq blank comment word number quote punctuation,
      .inr ⟨_, rfl⟩⟩

/-- **What is scanned is written.**  The first token that is scanned stands behind blanks and
comments, and the others are scanned behind it. -/
theorem Cursor.exists_of_lexemes_eq_cons {l : Lexeme} {more : List Lexeme}
    (h : c.lexemes = l :: more) : ∃ c₁, Trivia c c₁ ∧ l.position = c₁.position ∧
      ((∃ c₂, TokenAt c₁ l.token c₂ ∧ more = c₂.lexemes) ∨ l.token.IsStray) := by
  obtain ⟨c₁, htrivia, hstop⟩ := c.exists_trivia
  rw [htrivia.lexemes_eq] at h
  refine ⟨c₁, htrivia, ?_⟩
  cases hrest : c₁.rest with
  | nil => simp [lexemes, hrest, scan] at h
  | cons ch rest =>
    obtain ⟨hblank, hcomment⟩ := hstop ch (by simp [hrest])
    rcases exists_token hrest hblank hcomment with ⟨t, c₂, htoken⟩ | ⟨t, more', hlexemes, hstray⟩
    · obtain ⟨rfl, rfl⟩ := List.cons.inj (h.symm.trans htoken.lexemes_eq)
      exact ⟨rfl, .inl ⟨c₂, htoken, rfl⟩⟩
    · obtain ⟨rfl, -⟩ := List.cons.inj (h.symm.trans hlexemes)
      exact ⟨rfl, .inr hstray⟩

/-- Where nothing is scanned, nothing but blanks and comments is left. -/
lemma Cursor.exists_of_lexemes_eq_nil (h : c.lexemes = []) : ∃ c', Trivia c c' ∧ c'.rest = [] := by
  obtain ⟨c₁, htrivia, hstop⟩ := c.exists_trivia
  rw [htrivia.lexemes_eq] at h
  cases hrest : c₁.rest with
  | nil => exact ⟨c₁, htrivia, hrest⟩
  | cons ch rest =>
    obtain ⟨hblank, hcomment⟩ := hstop ch (by simp [hrest])
    rcases exists_token hrest hblank hcomment with ⟨t, c₂, htoken⟩ | ⟨t, more, hlexemes, -⟩
    · rw [htoken.lexemes_eq] at h
      cases h
    · rw [hlexemes] at h
      cases h

/-- Each mark of punctuation is a single character. -/
lemma punctuation?_inj {a b : Char} {t : Token} (ha : punctuation? a = some t)
    (hb : punctuation? b = some t) : a = b := by
  unfold punctuation? at ha hb
  split at ha <;> cases ha <;> split at hb <;> first | rfl | cases hb

lemma TokenAt.spans_of_punctuation {ch : Char} {t : Token} (h : TokenAt c t c')
    (hch : punctuation? ch = some t) : c.Spans [ch] c' := by
  cases h with
  | punctuation hch' spans => rwa [punctuation?_inj hch hch']
  | _ =>
    unfold punctuation? at hch
    split at hch <;> simp at hch

/-- A mark of punctuation that is scanned stands behind blanks and comments. -/
lemma Cursor.exists_spans {l : Lexeme} {more : List Lexeme} (ch : Char)
    (h : c.lexemes = l :: more) (hch : punctuation? ch = some l.token) :
    ∃ c₁ c₂, Trivia c c₁ ∧ l.position = c₁.position ∧ c₁.Spans [ch] c₂ ∧ more = c₂.lexemes := by
  obtain ⟨c₁, htrivia, hposition, ⟨c₂, htoken, hmore⟩ | hstray⟩ := exists_of_lexemes_eq_cons h
  · exact ⟨c₁, c₂, htrivia, hposition, htoken.spans_of_punctuation hch, hmore⟩
  · unfold punctuation? at hch
    rcases hstray with hl | ⟨_, hl⟩ <;> rw [hl] at hch <;> split at hch <;> simp at hch

/-- A word that is scanned stands behind blanks and comments. -/
lemma Cursor.exists_word {position : Nat} {name : String} {more : List Lexeme}
    (h : c.lexemes = ⟨position, .word name⟩ :: more) :
    ∃ c₁ c₂, Trivia c c₁ ∧ position = c₁.position ∧ Word c₁ name c₂ ∧ more = c₂.lexemes := by
  obtain ⟨c₁, htrivia, hposition, ⟨c₂, htoken, hmore⟩ | hstray⟩ := exists_of_lexemes_eq_cons h
  · cases htoken with
    | word word => exact ⟨c₁, c₂, htrivia, hposition, word, hmore⟩
    | punctuation hch _ =>
      unfold punctuation? at hch
      split at hch <;> simp at hch
  · simp [Token.IsStray] at hstray

end TreeCode.Source
