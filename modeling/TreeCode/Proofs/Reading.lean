import Mathlib.Tactic.Common
import TreeCode.Proofs.Outcome
import TreeCode.Source.Reader

/-!
# What the reader does

Each function of the reader that succeeds does so in one of a few ways.  The relations below list
them, with what has been read on the way; a proof about what is read takes a run apart with them and
goes on by induction on the fuel.
-/

namespace TreeCode.Source

/-- How the rest of a list is read with one more unit of fuel. -/
inductive ListRead (start fuel : Nat) : Bool → List Lexeme → List Value → List Lexeme → Prop
  | close {first : Bool} {t : Lexeme} {rest : List Lexeme} (token : t.token = .closeBracket) :
      ListRead start fuel first (t :: rest) [] rest
  | comma {t : Lexeme} {tokens rest : List Lexeme} {vs : List Value} (token : t.token = .comma)
      (more : readList start fuel false tokens = .ok (vs, rest)) :
      ListRead start fuel false (t :: tokens) vs rest
  | list {first : Bool} {t : Lexeme} {tokens middle rest : List Lexeme} {items vs : List Value}
      (token : t.token = .openBracket)
      (within : readList t.position fuel true tokens = .ok (items, middle))
      (more : readList start fuel false middle = .ok (vs, rest)) :
      ListRead start fuel first (t :: tokens) (.list items :: vs) rest
  | atom {first : Bool} {t : Lexeme} {tokens rest : List Lexeme} {v : Value} {vs : List Value}
      (value : readAtom t = .ok v) (more : readList start fuel false tokens = .ok (vs, rest)) :
      ListRead start fuel first (t :: tokens) (v :: vs) rest

/-- How a value is read. -/
inductive ValueRead (fuel : Nat) : List Lexeme → Value → List Lexeme → Prop
  | list {t : Lexeme} {tokens rest : List Lexeme} {items : List Value}
      (token : t.token = .openBracket)
      (within : readList t.position fuel true tokens = .ok (items, rest)) :
      ValueRead fuel (t :: tokens) (.list items) rest
  | atom {t : Lexeme} {rest : List Lexeme} {v : Value} (value : readAtom t = .ok v) :
      ValueRead fuel (t :: rest) v rest

/-- How a field is read. -/
inductive FieldRead (stop fuel : Nat) : List Lexeme → Field → List Lexeme → Prop
  | keyed {position place : Nat} {key : String} {tokens rest : List Lexeme} {v : Value}
      (value : readValue stop fuel tokens = .ok (v, rest)) :
      FieldRead stop fuel (⟨position, .word key⟩ :: ⟨place, .equals⟩ :: tokens)
        ⟨some key, v, position⟩ rest
  | bare {tokens rest : List Lexeme} {v : Value}
      (not_key : ∀ position key place more,
        tokens ≠ ⟨position, .word key⟩ :: ⟨place, .equals⟩ :: more)
      (value : readValue stop fuel tokens = .ok (v, rest)) :
      FieldRead stop fuel tokens ⟨none, v, nextPosition stop tokens⟩ rest

/-- How the rest of an expression is read with one more unit of fuel. -/
inductive BodyRead (stop fuel depth : Nat) (opening : Opening) :
    List Lexeme → Body → List Lexeme → Prop
  | close {t : Lexeme} {rest : List Lexeme} (token : t.token = .closeParen) :
      BodyRead stop fuel depth opening (t :: rest) ⟨[], []⟩ rest
  | child {t : Lexeme} {tokens middle behind rest : List Lexeme} {inner : Opening}
      {body others : Body} (token : t.token = .openParen)
      (opens : readOpening stop depth (t :: tokens) = .ok (inner, middle))
      (within : readBody stop fuel (depth + 1) inner middle = .ok (body, behind))
      (more : readBody stop fuel depth opening behind = .ok (others, rest)) :
      BodyRead stop fuel depth opening (t :: tokens)
        ⟨others.fields,
          .expr ⟨inner.head, inner.position, body.fields⟩ body.children :: others.children⟩ rest
  | field {t : Lexeme} {tokens middle rest : List Lexeme} {f : Field} {others : Body}
      (not_close : t.token ≠ .closeParen) (not_open : t.token ≠ .openParen)
      (field : readField stop fuel (t :: tokens) = .ok (f, middle))
      (more : readBody stop fuel depth opening middle = .ok (others, rest)) :
      BodyRead stop fuel depth opening (t :: tokens)
        ⟨f :: others.fields, others.children⟩ rest

variable {stop fuel depth start : Nat} {first : Bool} {tokens rest : List Lexeme} {t : Lexeme}
  {opening : Opening} {body : Body} {f : Field} {v : Value} {vs : List Value}

lemma listRead_of_readList (h : readList start (fuel + 1) first tokens = .ok (vs, rest)) :
    ListRead start fuel first tokens vs rest := by
  cases tokens with
  | nil => simp [readList] at h
  | cons t tokens =>
    rw [readList] at h
    split at h
    case h_1 hclose =>
      obtain ⟨rfl, rfl⟩ := Prod.mk.inj (Except.ok.inj h)
      exact .close hclose
    case h_2 hcomma =>
      cases first with
      | true => cases h
      | false => exact .comma hcomma h
    case h_3 hopen =>
      obtain ⟨⟨items, middle⟩, hitems, h⟩ := Except.bind_eq_ok_iff.mp h
      obtain ⟨⟨others, rest'⟩, hothers, h⟩ := Except.bind_eq_ok_iff.mp h
      obtain ⟨rfl, rfl⟩ := Prod.mk.inj (Except.ok.inj h)
      exact .list hopen hitems hothers
    case h_4 =>
      obtain ⟨value, hvalue, h⟩ := Except.bind_eq_ok_iff.mp h
      obtain ⟨⟨others, rest'⟩, hothers, h⟩ := Except.bind_eq_ok_iff.mp h
      obtain ⟨rfl, rfl⟩ := Prod.mk.inj (Except.ok.inj h)
      exact .atom hvalue hothers

/-- An atom is no bracket and no comma. -/
lemma token_ne_of_readAtom (h : readAtom t = .ok v) :
    t.token ≠ .openBracket ∧ t.token ≠ .closeBracket ∧ t.token ≠ .comma := by
  refine ⟨?_, ?_, ?_⟩ <;> intro ht <;> simp [readAtom, ht] at h

/-- A number is no list. -/
lemma literalValue?_ne_list (literal : List Char) : literalValue? literal ≠ some (.list vs) := by
  intro h
  unfold literalValue? at h
  dsimp only at h
  repeat' split at h
  all_goals simp at h

/-- An atom is no list. -/
lemma readAtom_ne_list (t : Lexeme) : readAtom t ≠ .ok (.list vs) := by
  intro h
  unfold readAtom at h
  split at h
  case h_4 literal _ =>
    split at h
    · rename_i value hvalue
      obtain rfl := Except.ok.inj h
      exact literalValue?_ne_list _ hvalue
    · cases h
  all_goals cases h

lemma valueRead_of_readValue (h : readValue stop fuel tokens = .ok (v, rest)) :
    ValueRead fuel tokens v rest := by
  cases tokens with
  | nil => simp [readValue] at h
  | cons t tokens =>
    rw [readValue] at h
    split at h
    · rename_i hopen
      obtain ⟨⟨items, middle⟩, hitems, h⟩ := Except.bind_eq_ok_iff.mp h
      obtain ⟨rfl, rfl⟩ := Prod.mk.inj (Except.ok.inj h)
      exact .list hopen hitems
    · obtain ⟨value, hvalue, h⟩ := Except.bind_eq_ok_iff.mp h
      obtain ⟨rfl, rfl⟩ := Prod.mk.inj (Except.ok.inj h)
      exact .atom hvalue

lemma fieldRead_of_readField (h : readField stop fuel tokens = .ok (f, rest)) :
    FieldRead stop fuel tokens f rest := by
  unfold readField at h
  split at h
  · obtain ⟨⟨value, rest'⟩, hvalue, h⟩ := Except.bind_eq_ok_iff.mp h
    obtain ⟨rfl, rfl⟩ := Prod.mk.inj (Except.ok.inj h)
    exact .keyed hvalue
  · rename_i hkey
    obtain ⟨⟨value, rest'⟩, hvalue, h⟩ := Except.bind_eq_ok_iff.mp h
    obtain ⟨rfl, rfl⟩ := Prod.mk.inj (Except.ok.inj h)
    exact .bare hkey hvalue

/-- A head is read behind a parenthesis, with not too many others open. -/
lemma exists_of_readOpening (h : readOpening stop depth tokens = .ok (opening, rest)) :
    depth < maxDepth ∧ ∃ place, tokens =
      ⟨opening.position, .openParen⟩ :: ⟨place, .word opening.head⟩ :: rest := by
  unfold readOpening at h
  split at h
  · split at h
    · cases h
    · split at h
      · obtain ⟨rfl, rfl⟩ := Prod.mk.inj (Except.ok.inj h)
        exact ⟨by omega, _, rfl⟩
      · cases h
  · cases h

lemma bodyRead_of_readBody (h : readBody stop (fuel + 1) depth opening tokens = .ok (body, rest)) :
    BodyRead stop fuel depth opening tokens body rest := by
  cases tokens with
  | nil => simp [readBody] at h
  | cons t tokens =>
    rw [readBody] at h
    split at h
    case h_1 hclose =>
      obtain ⟨rfl, rfl⟩ := Prod.mk.inj (Except.ok.inj h)
      exact .close hclose
    case h_2 hopen =>
      obtain ⟨⟨inner, middle⟩, hopening, h⟩ := Except.bind_eq_ok_iff.mp h
      obtain ⟨⟨body', behind⟩, hinner, h⟩ := Except.bind_eq_ok_iff.mp h
      obtain ⟨⟨others, rest'⟩, hothers, h⟩ := Except.bind_eq_ok_iff.mp h
      obtain ⟨rfl, rfl⟩ := Prod.mk.inj (Except.ok.inj h)
      exact .child hopen hopening hinner hothers
    case h_3 hclose hopen =>
      obtain ⟨⟨field, middle⟩, hfield, h⟩ := Except.bind_eq_ok_iff.mp h
      obtain ⟨⟨others, rest'⟩, hothers, h⟩ := Except.bind_eq_ok_iff.mp h
      obtain ⟨rfl, rfl⟩ := Prod.mk.inj (Except.ok.inj h)
      exact .field hclose hopen hfield hothers

/-- A text that is read holds an opening and a body with nothing behind them. -/
lemma exists_of_ofText {text : String} {e : Expr} (h : Expr.ofText text = .ok e) :
    ∃ opening rest body,
      readOpening (utf8Length text.toList) 0 (scan 0 text.toList) = .ok (opening, rest) ∧
        readBody (utf8Length text.toList) (scan 0 text.toList).length 1 opening rest =
          .ok (body, []) ∧
        e = .expr ⟨opening.head, opening.position, body.fields⟩ body.children := by
  obtain ⟨⟨opening, rest⟩, hopening, h⟩ := Except.bind_eq_ok_iff.mp h
  obtain ⟨⟨body, rest'⟩, hbody, h⟩ := Except.bind_eq_ok_iff.mp h
  cases rest' with
  | nil => exact ⟨opening, rest, body, hopening, hbody, (Except.ok.inj h).symm⟩
  | cons t rest' => simp at h

end TreeCode.Source
