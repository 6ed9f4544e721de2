import Mathlib.Data.List.Forall2
import Mathlib.Tactic.Common
import TreeCode.Proofs.Outcome
import TreeCode.Source.Reader

/-!
# Reading what was written

A phrase is an expression as it is written, without places.  Reading the tokens of a phrase that is
not nested too deep gives an expression that spells the phrase (`Expr.ofTokens_of_phrase`).
-/

namespace TreeCode.Source

/-! ## Phrases -/

/-- The value of a field as it is written. -/
inductive Item where
  | number (literal : String)
  | word (name : String)
  | text (body : String)
  /-- Names between brackets. -/
  | words (names : List String)

/-- A field as it is written. -/
structure Clause where
  key : Option String
  item : Item

/-- An expression as it is written. -/
inductive Phrase where
  | phrase (head : String) (clauses : List Clause) (children : List Phrase)

/-- Names with commas between them. -/
def listTokens : List String → List Token
  | [] => []
  | name :: names => .word name :: names.flatMap fun name => [.comma, .word name]

namespace Item

/-- The tokens of a value. -/
def tokens : Item → List Token
  | number literal => [.number literal]
  | word name => [.word name]
  | text body => [.text body]
  | words names => .openBracket :: (listTokens names ++ [.closeBracket])

/-- The value that is written. -/
def value? : Item → Option Value
  | number literal => literalValue? literal.toList
  | word name => some (.ident name)
  | text body => some (.text body)
  | words names => some (.list (names.map .ident))

end Item

/-- The tokens of a field. -/
def Clause.tokens (c : Clause) : List Token :=
  match c.key with
  | some key => .word key :: .equals :: c.item.tokens
  | none => c.item.tokens

namespace Phrase

mutual

/-- The tokens of an expression. -/
def tokens : Phrase → List Token
  | phrase head clauses children =>
    .openParen :: .word head ::
      (clauses.flatMap Clause.tokens ++ (allTokens children ++ [.closeParen]))

/-- The tokens of some expressions. -/
def allTokens : List Phrase → List Token
  | [] => []
  | p :: ps => tokens p ++ allTokens ps

end

mutual

/-- How many expressions are one within the other. -/
def height : Phrase → Nat
  | phrase _ _ children => heights children + 1

/-- The greatest height of some expressions. -/
def heights : List Phrase → Nat
  | [] => 0
  | p :: ps => max (height p) (heights ps)

end

/-- An expression in which every number is one. -/
inductive HasValues : Phrase → Prop
  | phrase {head : String} {clauses : List Clause} {children : List Phrase}
      (clauses_valued : ∀ c ∈ clauses, c.item.value?.isSome)
      (children_valued : ∀ p ∈ children, HasValues p) :
      HasValues (.phrase head clauses children)

end Phrase

/-- The field that is written. -/
structure Field.Spells (f : Field) (c : Clause) : Prop where
  key : f.key = c.key
  value : c.item.value? = some f.value

/-- The expression that is written. -/
inductive Expr.Spells : Expr → Phrase → Prop
  | expr {form : Form} {es : List Expr} {head : String} {clauses : List Clause} {ps : List Phrase}
      (head_eq : form.head = head) (fields : List.Forall₂ Field.Spells form.fields clauses)
      (children : List.Forall₂ Spells es ps) : Spells (.expr form es) (.phrase head clauses ps)

/-! ## Values -/

variable {fuel depth : Nat} {lexemes : List Lexeme} {more : List Token}

/-- Names behind commas are read up to the bracket. -/
lemma readList_flatMap (start : Nat) {names : List String} (hfuel : lexemes.length ≤ fuel)
    (h : lexemes.map Lexeme.token =
      names.flatMap (fun name => [.comma, .word name]) ++ .closeBracket :: more) :
    ∃ rest, readList start fuel false lexemes = .ok (names.map .ident, rest) ∧
      rest.map Lexeme.token = more := by
  induction names generalizing fuel lexemes with
  | nil =>
    obtain ⟨t, rest, rfl, ht, hrest⟩ := List.map_eq_cons_iff.mp h
    obtain ⟨fuel, rfl⟩ := Nat.exists_eq_add_of_le' (Nat.le_trans (Nat.le_add_left 1 _) hfuel)
    exact ⟨rest, by simp [readList, ht], hrest⟩
  | cons name names ih =>
    obtain ⟨c, ls, rfl, hc, hls⟩ := List.map_eq_cons_iff.mp h
    obtain ⟨w, ls, rfl, hw, hls⟩ := List.map_eq_cons_iff.mp hls
    simp only [List.length_cons] at hfuel
    obtain ⟨fuel, rfl⟩ := Nat.exists_eq_add_of_le' (show 2 ≤ fuel by omega)
    have hlength : ls.length ≤ fuel := by omega
    obtain ⟨rest, hread, hrest⟩ := ih hlength hls
    exact ⟨rest, by simp [readList, hc, hw, readAtom, hread], hrest⟩

/-- A list of names is read. -/
lemma readList_listTokens (start : Nat) {names : List String} (hfuel : lexemes.length ≤ fuel)
    (h : lexemes.map Lexeme.token = listTokens names ++ .closeBracket :: more) :
    ∃ rest, readList start fuel true lexemes = .ok (names.map .ident, rest) ∧
      rest.map Lexeme.token = more := by
  cases names with
  | nil =>
    obtain ⟨t, rest, rfl, ht, hrest⟩ := List.map_eq_cons_iff.mp h
    obtain ⟨fuel, rfl⟩ := Nat.exists_eq_add_of_le' (Nat.le_trans (Nat.le_add_left 1 _) hfuel)
    exact ⟨rest, by simp [readList, ht], hrest⟩
  | cons name names =>
    obtain ⟨w, ls, rfl, hw, hls⟩ := List.map_eq_cons_iff.mp h
    simp only [List.length_cons] at hfuel
    obtain ⟨fuel, rfl⟩ := Nat.exists_eq_add_of_le' (show 1 ≤ fuel by omega)
    have hlength : ls.length ≤ fuel := by omega
    obtain ⟨rest, hread, hrest⟩ := readList_flatMap start hlength hls
    exact ⟨rest, by simp [readList, hw, readAtom, hread], hrest⟩

/-- A value is read from its tokens. -/
lemma readValue_item (stop : Nat) {item : Item} {v : Value} (hvalue : item.value? = some v)
    (hfuel : lexemes.length ≤ fuel + 1) (h : lexemes.map Lexeme.token = item.tokens ++ more) :
    ∃ rest, readValue stop fuel lexemes = .ok (v, rest) ∧ rest.map Lexeme.token = more := by
  cases item with
  | number literal =>
    obtain ⟨t, rest, rfl, ht, hrest⟩ := List.map_eq_cons_iff.mp h
    have hliteral : literalValue? literal.toList = some v := hvalue
    exact ⟨rest, by simp [readValue, readAtom, ht, hliteral], hrest⟩
  | word name =>
    obtain ⟨t, rest, rfl, ht, hrest⟩ := List.map_eq_cons_iff.mp h
    obtain rfl := Option.some.inj hvalue
    exact ⟨rest, by simp [readValue, readAtom, ht], hrest⟩
  | text body =>
    obtain ⟨t, rest, rfl, ht, hrest⟩ := List.map_eq_cons_iff.mp h
    obtain rfl := Option.some.inj hvalue
    exact ⟨rest, by simp [readValue, readAtom, ht], hrest⟩
  | words names =>
    rw [Item.tokens, List.cons_append, List.append_assoc, List.singleton_append] at h
    obtain ⟨t, ls, rfl, ht, hls⟩ := List.map_eq_cons_iff.mp h
    obtain rfl := Option.some.inj hvalue
    obtain ⟨rest, hread, hrest⟩ := readList_listTokens t.position
      (Nat.le_of_succ_le_succ hfuel) hls
    exact ⟨rest, by simp [readValue, ht, hread], hrest⟩

/-- No value begins with a word and an equals sign. -/
lemma Item.tokens_ne_key {item : Item} {key : String} {ts : List Token}
    (hnext : more.head? ≠ some .equals) : item.tokens ++ more ≠ .word key :: .equals :: ts := by
  cases item <;> simp only [tokens, List.cons_append, List.nil_append, ne_eq, List.cons.injEq,
    reduceCtorEq, false_and, not_false_eq_true, Token.word.injEq, not_and]
  rintro - rfl
  exact hnext rfl

/-- A field is read from its tokens. -/
lemma readField_clause (stop : Nat) {c : Clause} (hvalue : c.item.value?.isSome)
    (hnext : more.head? ≠ some .equals) (hfuel : lexemes.length ≤ fuel + 1)
    (h : lexemes.map Lexeme.token = c.tokens ++ more) :
    ∃ field rest, readField stop fuel lexemes = .ok (field, rest) ∧ field.Spells c ∧
      rest.map Lexeme.token = more := by
  obtain ⟨v, hv⟩ := Option.isSome_iff_exists.mp hvalue
  obtain ⟨key, item⟩ := c
  cases key with
  | some key =>
    obtain ⟨⟨position, _⟩, ls, rfl, rfl, hls⟩ := List.map_eq_cons_iff.mp h
    obtain ⟨⟨_, _⟩, ls', rfl, rfl, hls'⟩ := List.map_eq_cons_iff.mp hls
    simp only [List.length_cons] at hfuel
    have hlength : ls'.length ≤ fuel + 1 := by omega
    obtain ⟨rest, hread, hrest⟩ := readValue_item stop hv hlength hls'
    exact ⟨⟨some key, v, position⟩, rest, by simp [readField, hread], ⟨rfl, hv⟩, hrest⟩
  | none =>
    obtain ⟨rest, hread, hrest⟩ := readValue_item stop hv hfuel h
    refine ⟨⟨none, v, nextPosition stop lexemes⟩, rest, ?_, ⟨rfl, hv⟩, hrest⟩
    unfold readField
    split
    · exact absurd h.symm (Item.tokens_ne_key hnext)
    · simp [hread]

/-! ## Expressions -/

lemma Item.tokens_head {item : Item} : ∃ t ts, item.tokens = t :: ts ∧
    t ≠ .openParen ∧ t ≠ .closeParen ∧ t ≠ .equals := by
  cases item <;> exact ⟨_, _, rfl, by simp, by simp, by simp⟩

/-- A field begins with no parenthesis and no equals sign. -/
lemma Clause.tokens_head {c : Clause} : ∃ t ts, c.tokens = t :: ts ∧
    t ≠ .openParen ∧ t ≠ .closeParen ∧ t ≠ .equals := by
  obtain ⟨key, item⟩ := c
  cases key with
  | some key => exact ⟨_, _, rfl, by simp, by simp, by simp⟩
  | none => exact Item.tokens_head

variable {stop : Nat} {opening : Opening}

lemma readBody_of_ne {t : Lexeme} (hopen : t.token ≠ .openParen) (hclose : t.token ≠ .closeParen) :
    readBody stop (fuel + 1) depth opening (t :: lexemes) = (do
      let (field, rest) ← readField stop fuel (t :: lexemes)
      let (others, rest) ← readBody stop fuel depth opening rest
      .ok (⟨field :: others.fields, others.children⟩, rest)) := by
  rw [readBody]
  split
  · contradiction
  · contradiction
  · rfl

/-- Fields are read in front of what can be read behind them. -/
lemma readBody_clauses {clauses : List Clause} {us : List Token} {ps : List Phrase}
    (hvalues : ∀ c ∈ clauses, c.item.value?.isSome) (hnext : us.head? ≠ some .equals)
    (hchildren : ∀ {fuel lexemes}, lexemes.length ≤ fuel → lexemes.map Lexeme.token = us →
      ∃ es rest, readBody stop fuel depth opening lexemes = .ok (⟨[], es⟩, rest) ∧
        List.Forall₂ Expr.Spells es ps ∧ rest.map Lexeme.token = more)
    (hfuel : lexemes.length ≤ fuel)
    (h : lexemes.map Lexeme.token = clauses.flatMap Clause.tokens ++ us) :
    ∃ fs es rest, readBody stop fuel depth opening lexemes = .ok (⟨fs, es⟩, rest) ∧
      List.Forall₂ Field.Spells fs clauses ∧ List.Forall₂ Expr.Spells es ps ∧
        rest.map Lexeme.token = more := by
  induction clauses generalizing fuel lexemes with
  | nil =>
    obtain ⟨es, rest, hread, hes, hrest⟩ := hchildren hfuel h
    exact ⟨[], es, rest, hread, .nil, hes, hrest⟩
  | cons c clauses ih =>
    obtain ⟨hc, hclauses⟩ := List.forall_mem_cons.mp hvalues
    rw [List.flatMap_cons, List.append_assoc] at h
    have hnext' : (clauses.flatMap Clause.tokens ++ us).head? ≠ some .equals := by
      cases clauses with
      | nil => exact hnext
      | cons c' clauses =>
        obtain ⟨t, ts, htokens, -, -, hequals⟩ := Clause.tokens_head (c := c')
        simpa [htokens] using hequals
    -- The first token of the field decides how the reader goes on.
    obtain ⟨t, ts, htokens, hopen, hclose, -⟩ := Clause.tokens_head (c := c)
    obtain ⟨t', ls, rfl, ht, -⟩ := List.map_eq_cons_iff.mp
      (h.trans (by rw [htokens, List.cons_append]))
    rw [← ht] at hopen hclose
    obtain ⟨fuel, rfl⟩ := Nat.exists_eq_add_of_le' (Nat.le_trans (Nat.le_add_left 1 _) hfuel)
    obtain ⟨field, rest, hfield, hspells, hrest⟩ :=
      readField_clause stop hc hnext' hfuel h
    have hlength : rest.length ≤ fuel := by
      have hall := congrArg List.length h
      have hrest' := congrArg List.length hrest
      rw [htokens] at hall
      simp only [List.length_map, List.length_append, List.length_cons] at hall hrest' hfuel
      omega
    obtain ⟨fs, es, rest', hread, hfs, hes, hrest'⟩ := ih hclauses hlength hrest
    exact ⟨field :: fs, es, rest', by simp [readBody_of_ne hopen hclose, hfield, hread],
      .cons hspells hfs, hes, hrest'⟩

mutual

/-- An expression is read from its tokens. -/
lemma read_phrase (stop : Nat) : ∀ {p : Phrase} {depth fuel : Nat} {lexemes : List Lexeme}
    {more : List Token},
    p.HasValues → depth + p.height ≤ maxDepth → lexemes.length ≤ fuel + 1 →
      lexemes.map Lexeme.token = p.tokens ++ more →
      ∃ opening inner body rest, readOpening stop depth lexemes = .ok (opening, inner) ∧
        readBody stop fuel (depth + 1) opening inner = .ok (body, rest) ∧
          (Expr.expr ⟨opening.head, opening.position, body.fields⟩ body.children).Spells p ∧
            rest.map Lexeme.token = more
  | .phrase head clauses children, depth, fuel, lexemes, more, hvalues, hdepth, hfuel, h => by
    rw [Phrase.tokens, List.cons_append, List.cons_append, List.append_assoc,
      List.append_assoc] at h
    rw [Phrase.height] at hdepth
    obtain ⟨⟨position, _⟩, ls, rfl, rfl, hls⟩ := List.map_eq_cons_iff.mp h
    obtain ⟨⟨_, _⟩, inner, rfl, rfl, hinner⟩ := List.map_eq_cons_iff.mp hls
    simp only [List.length_cons] at hfuel
    cases hvalues with
    | phrase hclauses hchildren =>
      have hdepth' : depth + 1 + Phrase.heights children ≤ maxDepth := by omega
      have hlength : inner.length ≤ fuel := by omega
      have hnext : (Phrase.allTokens children ++ ([Token.closeParen] ++ more)).head? ≠
          some .equals := by
        cases children with
        | nil => simp [Phrase.allTokens]
        | cons p ps =>
          cases p
          simp [Phrase.allTokens, Phrase.tokens]
      rw [List.singleton_append] at hinner hnext
      obtain ⟨fs, es, rest, hbody, hfs, hes, hrest⟩ :=
        readBody_clauses hclauses hnext
          (fun hfuel' htokens =>
            read_phrases stop ⟨position, head⟩ hchildren hdepth' hfuel' htokens)
          hlength hinner
      refine ⟨⟨position, head⟩, inner, ⟨fs, es⟩, rest, ?_, hbody, .expr rfl hfs hes, hrest⟩
      simp only [readOpening]
      rw [if_neg (by omega)]

/-- Expressions are read from their tokens. -/
lemma read_phrases (stop : Nat) (opening : Opening) : ∀ {ps : List Phrase} {depth fuel : Nat}
    {lexemes : List Lexeme} {more : List Token}, (∀ p ∈ ps, p.HasValues) →
      depth + Phrase.heights ps ≤ maxDepth → lexemes.length ≤ fuel →
        lexemes.map Lexeme.token = Phrase.allTokens ps ++ .closeParen :: more →
        ∃ es rest, readBody stop fuel depth opening lexemes = .ok (⟨[], es⟩, rest) ∧
          List.Forall₂ Expr.Spells es ps ∧ rest.map Lexeme.token = more
  | [], depth, fuel, lexemes, more, _, _, hfuel, h => by
    obtain ⟨t, rest, rfl, ht, hrest⟩ := List.map_eq_cons_iff.mp h
    obtain ⟨fuel, rfl⟩ := Nat.exists_eq_add_of_le' (Nat.le_trans (Nat.le_add_left 1 _) hfuel)
    exact ⟨[], rest, by simp [readBody, ht], .nil, hrest⟩
  | p :: ps, depth, fuel, lexemes, more, hvalues, hdepth, hfuel, h => by
    obtain ⟨hp, hps⟩ := List.forall_mem_cons.mp hvalues
    have hfirst : depth + p.height ≤ maxDepth :=
      Nat.le_trans (Nat.add_le_add_left (Nat.le_max_left _ _) _) hdepth
    have hlater : depth + Phrase.heights ps ≤ maxDepth :=
      Nat.le_trans (Nat.add_le_add_left (Nat.le_max_right _ _) _) hdepth
    rw [Phrase.allTokens, List.append_assoc] at h
    obtain ⟨t, ls, rfl, ht⟩ : ∃ t ls, lexemes = t :: ls ∧ t.token = .openParen := by
      cases p
      obtain ⟨t, ls, hlexemes, ht, -⟩ := List.map_eq_cons_iff.mp h
      exact ⟨t, ls, hlexemes, ht⟩
    obtain ⟨fuel, rfl⟩ := Nat.exists_eq_add_of_le' (Nat.le_trans (Nat.le_add_left 1 _) hfuel)
    obtain ⟨inner, ls', body, rest, hopening, hbody, hspells, hrest⟩ :=
      read_phrase stop hp hfirst hfuel h
    have hlength : rest.length ≤ fuel := by
      have hall := congrArg List.length h
      have hrest' := congrArg List.length hrest
      simp only [List.length_map, List.length_append, List.length_cons] at hall hrest' hfuel
      cases p
      simp only [Phrase.tokens, List.length_cons] at hall
      omega
    obtain ⟨es, rest', hothers, hes, hrest'⟩ :=
      read_phrases stop opening hps hlater hlength hrest
    refine ⟨_, rest', ?_, .cons hspells hes, hrest'⟩
    rw [readBody]
    simp only [ht, hopening, hbody, hothers, Except.ok_bind]

end

/-- **The tokens of a phrase are read as an expression that spells it.** -/
theorem Expr.ofTokens_of_phrase {p : Phrase} (hvalues : p.HasValues) (hheight : p.height ≤ maxDepth)
    (h : lexemes.map Lexeme.token = p.tokens) :
    ∃ e, Expr.ofTokens stop lexemes = .ok e ∧ e.Spells p := by
  have hdepth : 0 + p.height ≤ maxDepth := by omega
  obtain ⟨opening, inner, body, rest, hopening, hbody, hspells, hrest⟩ :=
    read_phrase stop hvalues hdepth (Nat.le_succ lexemes.length) (h.trans (List.append_nil _).symm)
  obtain rfl := List.map_eq_nil_iff.mp hrest
  exact ⟨_, by simp [ofTokens, hopening, hbody], hspells⟩

end TreeCode.Source
