import TreeCode.Printing
import TreeCode.Proofs.Literals
import TreeCode.Proofs.Phrases
import TreeCode.Proofs.WellTyped

/-!
# The phrases of methods

A method as a phrase (`Method.phrase`).  Its text is made of the tokens of the phrase
(`Method.tokens_render`), as long as no name of it holds a double quote.
-/

namespace TreeCode

open Source

/-! ## Phrases -/

/-- A floating point constant as it is written.  Positive infinity and numbers that are none are
written as words. -/
def floatItem (bits : UInt64) : Item :=
  match Number.binary64.decode bits.toNat with
  | .nan => .word "NaN"
  | .infinite false => .word "inf"
  | _ => .number (Number.render Number.constantStyle Number.binary64 bits.toNat)

/-- The name that a branch is written with. -/
def targetLabel (blocks : List Block) (index : Nat) : String :=
  (blocks[index]?.map fun block => block.label index).getD ("#" ++ toString index)

/-- The operand of a node that is no tree, apart from the offset of an access. -/
def Immediate.clauses (blocks : List Block) (op : Opcode) : Immediate → List Clause
  | .none | .offset _ => []
  | .parm index => [⟨some "parm", .number (toString index.toNat)⟩]
  | .int v => if op = .const then [⟨Option.none, .number (toString v.toInt)⟩] else []
  | .float bits => if op = .const then [⟨Option.none, floatItem bits⟩] else []
  | .target index => [⟨some "target", .text (targetLabel blocks index)⟩]
  | .address a => [⟨some "address", .number (Text.hex a.toNat)⟩]

/-- The type of a vector access. -/
def accessClauses (op : Opcode) (type : DataType) : List Clause :=
  if type.isVector && (op == .loadIndirect || op == .storeIndirect) then
    [⟨some "type", .word type.name⟩]
  else []

/-- The byte offset of an indirect access. -/
def offsetClauses : Immediate → List Clause
  | .offset o => [⟨some "offset", .number (toString o.toInt)⟩]
  | _ => []

/-- The types of the arguments of a call. -/
def argumentClauses (op : Opcode) (children : List Node) : List Clause :=
  if op = .call && !children.isEmpty then
    [⟨some "args", .words ((children.map Node.type).map DataType.name)⟩]
  else []

/-- The fields of a tree's expression. -/
def nodeClauses (blocks : List Block) (op : Opcode) (type : DataType) (imm : Immediate)
    (children : List Node) : List Clause :=
  imm.clauses blocks op ++ accessClauses op type ++ offsetClauses imm ++ argumentClauses op children

mutual

/-- A tree as a phrase. -/
def Node.phrase (blocks : List Block) : Node → Phrase
  | .node op type imm children =>
    .phrase (op.mnemonic type) (nodeClauses blocks op type imm children)
      (Node.phrases blocks children)

/-- Trees as phrases. -/
def Node.phrases (blocks : List Block) : List Node → List Phrase
  | [] => []
  | n :: ns => Node.phrase blocks n :: Node.phrases blocks ns

end

/-- The field with a name, if there is one. -/
def nameClauses : Option String → List Clause
  | some name => [⟨some "name", .text name⟩]
  | none => []

/-- A block as a phrase. -/
def Block.phrase (blocks : List Block) (b : Block) : Phrase :=
  .phrase "block" (nameClauses b.name) (b.trees.map (Node.phrase blocks))

/-- The fields of a method's expression. -/
def Method.clauses (m : Method) : List Clause :=
  nameClauses m.name ++ [⟨some "return", .word m.returnType.name⟩,
    ⟨some "args", .words (m.params.map DataType.name)⟩]

/-- A method as a phrase. -/
def Method.phrase (m : Method) : Phrase :=
  .phrase "method" m.clauses (m.blocks.map (Block.phrase m.blocks))

/-! ## Words -/

lemma DataType.isWord_name (t : DataType) : IsWord t.name.toList := by
  refine isWord_of_all ?_
  cases t with
  | vector lane => cases lane <;> rfl
  | _ => rfl

lemma DataType.isWord_letter (t : DataType) : t.letter.toList = [] ∨ IsWord t.letter.toList := by
  cases t with
  | noType => exact .inl rfl
  | vector lane =>
    rw [DataType.letter]
    exact .inr (isWord_of_all rfl)
  | _ => exact .inr (isWord_of_all rfl)

lemma Opcode.isWord_mnemonic (op : Opcode) (t : DataType) : IsWord (op.mnemonic t).toList := by
  cases op with
  | ifcmp c =>
    have hif : IsWord "if".toList := isWord_of_all rfl
    have hsuffix : IsWord ("cmp" ++ c.suffix).toList := by
      cases c <;> exact isWord_of_all rfl
    simp only [mnemonic, String.append_assoc, String.toList_append]
    exact .append (.inr hif) (.append t.isWord_letter (by simpa using hsuffix))
  | goto =>
    simp only [mnemonic]
    exact isWord_of_all rfl
  | _ =>
    simp only [mnemonic, String.toList_append]
    exact .append t.isWord_letter (isWord_of_all rfl)

/-! ## Fields -/

/-- A number is written as one token. -/
lemma lexes_number {literal : String} (h : IsNumber literal.toList) :
    Lexes literal.toList (Item.number literal).tokens := by
  simpa [Item.tokens] using Lexes.number h

lemma lexes_word {name : String} (h : IsWord name.toList) :
    Lexes name.toList (Item.word name).tokens := by
  simpa [Item.tokens] using Lexes.word h

/-- A name between double quotes is written as one token. -/
lemma lexes_quotedName {name : String} (h : '"' ∉ name.toList) :
    Lexes (quotedName name).toList (Item.text name).tokens := by
  simpa [quotedName, Item.tokens] using Lexes.text h

/-- What stands between the members of a list stands in front of each but the first. -/
lemma intercalate_cons {α : Type} (between l : List α) (ls : List (List α)) :
    between.intercalate (l :: ls) = l ++ ls.flatMap (between ++ ·) := by
  induction ls generalizing l with
  | nil => simp
  | cons l' ls ih => rw [List.intercalate_cons_cons, ih, List.flatMap_cons, List.append_assoc,
      List.append_assoc]

/-- Names with commas between them. -/
lemma lexes_names {names : List String} (h : ∀ name ∈ names, IsWord name.toList) :
    Lexes (",".intercalate names).toList (listTokens names) := by
  cases names with
  | nil => exact .nil
  | cons name names =>
    obtain ⟨hname, hnames⟩ := List.forall_mem_cons.mp h
    have htail : Piece (names.flatMap fun name => ',' :: name.toList)
        (names.flatMap fun name => [.comma, .word name]) := by
      clear h
      induction names with
      | nil => exact .nil
      | cons name' names ih =>
        obtain ⟨hname', hnames'⟩ := List.forall_mem_cons.mp hnames
        have hword : Lexes (',' :: name'.toList) [.comma, .word name'] :=
          .punctuation rfl (lexes_word hname')
        exact Piece.append ⟨hword, separates_cons rfl⟩ (ih hnames')
    have hchars : (",".intercalate (name :: names)).toList =
        name.toList ++ names.flatMap fun name => ',' :: name.toList := by
      rw [String.toList_intercalate, List.map_cons, intercalate_cons, List.flatMap_map]
      rfl
    rw [hchars]
    exact (lexes_word hname).append htail.lexes htail.separates

/-- A list of types is written as the tokens of their names. -/
lemma lexes_renderTypes (types : List DataType) :
    Lexes (renderTypes types).toList (Item.words (types.map DataType.name)).tokens := by
  have hnames : Lexes (",".intercalate (types.map DataType.name)).toList
      (listTokens (types.map DataType.name)) := by
    refine lexes_names fun name hname => ?_
    obtain ⟨t, -, rfl⟩ := List.mem_map.mp hname
    exact t.isWord_name
  have hclose : Lexes [']'] [.closeBracket] := .punctuation rfl .nil
  simpa [renderTypes, Item.tokens] using
    Lexes.punctuation (c := '[') rfl (hnames.append hclose (separates_cons rfl))

/-- A field with a key is written behind a space. -/
lemma piece_keyed (key : String) {text : String} {item : Item} (hkey : IsWord key.toList)
    (hitem : Lexes text.toList item.tokens) :
    Piece (" " ++ key ++ "=" ++ text).toList (Clause.tokens ⟨some key, item⟩) := by
  have hequals : Lexes ('=' :: text.toList) (.equals :: item.tokens) := .punctuation rfl hitem
  have hfield := (Lexes.word hkey).append hequals (separates_cons rfl)
  simpa [Clause.tokens] using Piece.blank (c := ' ') rfl hfield

variable {blocks : List Block} {op : Opcode} {type : DataType}

lemma lexes_floatItem (bits : UInt64) :
    Lexes (Number.render Number.constantStyle Number.binary64 bits.toNat).toList
      (floatItem bits).tokens := by
  unfold floatItem
  split
  · rename_i hnan
    have hrender : Number.render Number.constantStyle Number.binary64 bits.toNat = "NaN" := by
      simp [Number.render, hnan]
    rw [hrender]
    exact lexes_word (isWord_of_all rfl)
  · rename_i hinfinite
    have hrender : Number.render Number.constantStyle Number.binary64 bits.toNat = "inf" := by
      simp [Number.render, hinfinite]
    rw [hrender]
    exact lexes_word (isWord_of_all rfl)
  · rename_i hnan hinfinite
    refine lexes_number ?_
    cases hdecode : Number.binary64.decode bits.toNat with
    | nan => exact absurd hdecode hnan
    | infinite negative =>
      cases negative with
      | false => exact absurd hdecode hinfinite
      | true => exact (render_negative_infinite hdecode).1
    | finite negative m e => exact (render_finite hdecode).1

/-- The operand that is no tree is written as its fields. -/
lemma piece_immediate (hlabels : ∀ index, '"' ∉ (targetLabel blocks index).toList)
    (op : Opcode) (imm : Immediate) :
    Piece (imm.render blocks op).toList ((imm.clauses blocks op).flatMap Clause.tokens) := by
  cases imm with
  | none => exact .nil
  | offset => exact .nil
  | parm index =>
    have hnumber : IsNumber (toString index.toNat).toList := by
      rw [← toString_natCast]
      exact isNumber_toString _
    simpa [Immediate.render, Immediate.clauses] using
      piece_keyed "parm" (isWord_of_all rfl) (lexes_number hnumber)
  | int v =>
    by_cases hop : op = .const
    · have hitem := lexes_number (isNumber_toString v.toInt)
      simpa [Immediate.render, Immediate.clauses, hop, Clause.tokens] using
        Piece.blank (c := ' ') rfl hitem
    · simpa [Immediate.render, Immediate.clauses, hop] using Piece.nil
  | float bits =>
    by_cases hop : op = .const
    · simpa [Immediate.render, Immediate.clauses, hop, Clause.tokens] using
        Piece.blank (c := ' ') rfl (lexes_floatItem bits)
    · simpa [Immediate.render, Immediate.clauses, hop] using Piece.nil
  | target index =>
    simpa [Immediate.render, Immediate.clauses, targetLabel] using
      piece_keyed "target" (isWord_of_all rfl) (lexes_quotedName (hlabels index))
  | address a =>
    simpa [Immediate.render, Immediate.clauses] using
      piece_keyed "address" (isWord_of_all rfl) (lexes_number (isNumber_hex a.toNat))

lemma piece_accessType (op : Opcode) (type : DataType) :
    Piece (renderAccessType op type).toList ((accessClauses op type).flatMap Clause.tokens) := by
  rw [renderAccessType, accessClauses]
  split
  · simpa using piece_keyed "type" (isWord_of_all rfl) (lexes_word type.isWord_name)
  · exact .nil

lemma piece_offset (imm : Immediate) :
    Piece (renderOffset imm).toList ((offsetClauses imm).flatMap Clause.tokens) := by
  cases imm with
  | offset o =>
    simpa [renderOffset, offsetClauses] using
      piece_keyed "offset" (isWord_of_all rfl) (lexes_number (isNumber_toString o.toInt))
  | _ => exact .nil

lemma piece_arguments (op : Opcode) (children : List Node) :
    Piece (renderArguments op children).toList
      ((argumentClauses op children).flatMap Clause.tokens) := by
  rw [renderArguments, argumentClauses]
  split
  · simpa using piece_keyed "args" (isWord_of_all rfl)
      (lexes_renderTypes (children.map Node.type))
  · exact .nil

lemma piece_name {name : Option String} (h : ∀ n, name = some n → '"' ∉ n.toList) :
    Piece (renderName name).toList ((nameClauses name).flatMap Clause.tokens) := by
  cases name with
  | none => exact .nil
  | some name =>
    simpa [renderName, nameClauses] using
      piece_keyed "name" (isWord_of_all rfl) (lexes_quotedName (h name rfl))

/-! ## Expressions -/

/-- An expression is written as a head, its fields and its children. -/
lemma lexes_phrase (head : String) {fields below : String} {clauses : List Clause}
    {ps : List Phrase} (hhead : IsWord head.toList)
    (hfields : Piece fields.toList (clauses.flatMap Clause.tokens))
    (hbelow : Piece below.toList (Phrase.allTokens ps)) :
    Lexes ("(" ++ head ++ fields ++ below ++ ")").toList
      (Phrase.phrase head clauses ps).tokens := by
  have hclose : Piece [')'] [.closeParen] := ⟨.punctuation rfl .nil, separates_cons rfl⟩
  have hbody := hfields.append (hbelow.append hclose)
  have hexpr := Lexes.punctuation (c := '(') rfl
    ((lexes_word hhead).append hbody.lexes hbody.separates)
  simpa [Phrase.tokens, Item.tokens] using hexpr

mutual

/-- A tree is written as its phrase. -/
lemma Node.lexes_render (hlabels : ∀ index, '"' ∉ (targetLabel blocks index).toList) :
    ∀ n : Node, Lexes (n.render blocks).toList (n.phrase blocks).tokens
  | .node op type imm children => by
    have hfields : Piece (imm.render blocks op ++ renderAccessType op type ++ renderOffset imm ++
        renderArguments op children).toList
          ((nodeClauses blocks op type imm children).flatMap Clause.tokens) := by
      simpa [nodeClauses] using (((piece_immediate hlabels op imm).append
        (piece_accessType op type)).append (piece_offset imm)).append (piece_arguments op children)
    have hexpr := lexes_phrase (op.mnemonic type) (op.isWord_mnemonic type) hfields
      (Node.piece_renderAll hlabels children)
    simpa [Node.render, Node.phrase, String.append_assoc] using hexpr

/-- Trees are written as their phrases. -/
lemma Node.piece_renderAll (hlabels : ∀ index, '"' ∉ (targetLabel blocks index).toList) :
    ∀ ns : List Node, Piece (Node.renderAll blocks ns).toList
      (Phrase.allTokens (Node.phrases blocks ns))
  | [] => .nil
  | n :: ns => by
    have hfirst := Piece.blank (c := ' ') rfl (Node.lexes_render hlabels n)
    simpa [Node.renderAll, Node.phrases, Phrase.allTokens] using
      hfirst.append (Node.piece_renderAll hlabels ns)

end

/-- Expressions one after the other are written as their phrases. -/
lemma piece_join {α : Type} {render : α → String} {phrase : α → Phrase} {l : List α}
    (h : ∀ a ∈ l, Piece (render a).toList (phrase a).tokens) :
    Piece (String.join (l.map render)).toList (Phrase.allTokens (l.map phrase)) := by
  induction l with
  | nil => exact .nil
  | cons a l ih =>
    obtain ⟨ha, hl⟩ := List.forall_mem_cons.mp h
    simpa [String.toList_join, Phrase.allTokens, List.flatMap_map] using ha.append (ih hl)

/-- No name that stands in the text of a method holds a double quote. -/
structure Method.NamesUnquoted (m : Method) : Prop where
  name : ∀ name, m.name = some name → '"' ∉ name.toList
  blocks : ∀ b ∈ m.blocks, ∀ name, b.name = some name → '"' ∉ name.toList

lemma Method.NamesUnquoted.targetLabel {m : Method} (h : m.NamesUnquoted) (index : Nat) :
    '"' ∉ (targetLabel m.blocks index).toList := by
  have hnumber : '"' ∉ ("#" ++ toString index).toList := by
    rw [String.toList_append, ← toString_natCast]
    intro hmem
    rcases List.mem_append.mp hmem with hmem | hmem
    · revert hmem
      decide
    · rcases isDigit_or_of_mem_toString hmem with hdigit | hsign
      · cases hdigit
      · revert hsign
        decide
  unfold TreeCode.targetLabel
  cases hblock : m.blocks[index]? with
  | none => exact hnumber
  | some b =>
    simp only [Option.map_some, Option.getD_some, Block.label]
    cases hname : b.name with
    | none => exact hnumber
    | some name => exact h.blocks b (List.mem_of_getElem? hblock) name hname

/-- A block is written as its phrase. -/
lemma Block.piece_render (hlabels : ∀ index, '"' ∉ (targetLabel blocks index).toList) {b : Block}
    (hname : ∀ name, b.name = some name → '"' ∉ name.toList) :
    Piece (b.render blocks).toList (b.phrase blocks).tokens := by
  have hbelow : Piece (String.join (b.trees.map fun t => "\n    " ++ t.render blocks)).toList
      (Phrase.allTokens (b.trees.map (Node.phrase blocks))) := by
    refine piece_join fun t _ => ?_
    have hspaces : Lexes (' ' :: ' ' :: ' ' :: ' ' :: (t.render blocks).toList)
        (t.phrase blocks).tokens :=
      (((Node.lexes_render hlabels t).blank rfl).blank rfl).blank rfl |>.blank rfl
    simpa using Piece.blank (c := '\n') rfl hspaces
  have hexpr := lexes_phrase "block" (isWord_of_all rfl) (piece_name hname) hbelow
  simpa [Block.render, Block.phrase] using
    Piece.blank (c := '\n') rfl ((hexpr.blank (c := ' ') rfl).blank (c := ' ') rfl)

/-- **The text of a method is made of the tokens of its phrase.** -/
theorem Method.tokens_render {m : Method} (h : m.NamesUnquoted) :
    tokens m.render.toList = m.phrase.tokens := by
  have hreturn := piece_keyed "return" (isWord_of_all rfl)
    (lexes_word m.returnType.isWord_name)
  have hargs := piece_keyed "args" (isWord_of_all rfl) (lexes_renderTypes m.params)
  have hfields : Piece (renderName m.name ++ (" " ++ "return" ++ "=" ++ m.returnType.name ++
      (" " ++ "args" ++ "=" ++ renderTypes m.params))).toList
        (m.clauses.flatMap Clause.tokens) := by
    simpa [Method.clauses] using (piece_name h.name).append (hreturn.append hargs)
  have hbelow : Piece (String.join (m.blocks.map (Block.render m.blocks))).toList
      (Phrase.allTokens (m.blocks.map (Block.phrase m.blocks))) :=
    piece_join fun b hb => Block.piece_render h.targetLabel (h.blocks b hb)
  have hexpr := lexes_phrase "method" (isWord_of_all rfl) hfields hbelow
  have htext := hexpr [] separates_nil
  rw [List.append_nil, tokens_nil, List.append_nil] at htext
  rw [Method.phrase, ← htext]
  congr 1
  simp [Method.render]

/-! ## Values -/

/-- Whether the bits are those of a number that its text gives back: positive infinity and what is
no number are written as words. -/
def Number.IsReadable (bits : UInt64) : Prop :=
  Number.binary64.decode bits.toNat ≠ .nan ∧ Number.binary64.decode bits.toNat ≠ .infinite false

/-- A readable constant is written with its value. -/
lemma value?_floatItem {bits : UInt64} (h : Number.IsReadable bits) :
    (floatItem bits).value? = some (.float bits) := by
  unfold floatItem
  split
  · rename_i hnan
    exact absurd hnan h.1
  · rename_i hinfinite
    exact absurd hinfinite h.2
  · rename_i hnan hinfinite
    cases hdecode : Number.binary64.decode bits.toNat with
    | nan => exact absurd hdecode hnan
    | infinite negative =>
      cases negative with
      | false => exact absurd hdecode hinfinite
      | true => exact (render_negative_infinite hdecode).2
    | finite negative m e => exact (render_finite hdecode).2

/-- Any other constant is written as a word. -/
lemma exists_value?_floatItem {bits : UInt64} (h : ¬Number.IsReadable bits) :
    ∃ name, (floatItem bits).value? = some (.ident name) := by
  unfold floatItem
  split
  · exact ⟨_, rfl⟩
  · exact ⟨_, rfl⟩
  · rename_i hnan hinfinite
    exact absurd ⟨hnan, hinfinite⟩ h

lemma value?_natural {n : Nat} (h : n < 2 ^ 63) :
    (Item.number (toString n)).value? = some (.int (Int64.ofInt n)) := by
  rw [Item.value?, ← toString_natCast, literalValue?_toString (by omega) (by exact_mod_cast h)]

lemma value?_int (v : Int64) :
    (Item.number (toString v.toInt)).value? = some (.int v) := by
  rw [Item.value?, literalValue?_toString v.le_toInt v.toInt_lt, Int64.ofInt_toInt]

lemma value?_offset (o : Int32) :
    (Item.number (toString o.toInt)).value? = some (.int (Int64.ofInt o.toInt)) := by
  have hlow := o.le_toInt
  have hhigh := o.toInt_lt
  rw [Item.value?, literalValue?_toString (by omega) (by omega)]

lemma value?_address (a : UInt64) :
    (Item.number (Text.hex a.toNat)).value? = some (.int (Int64.ofInt a.toNat)) :=
  literalValue?_hex a.toNat_lt

lemma isSome_value?_clauses {imm : Immediate} :
    ∀ c ∈ imm.clauses blocks op, c.item.value?.isSome := by
  cases imm with
  | none => simp [Immediate.clauses]
  | offset => simp [Immediate.clauses]
  | parm index =>
    have hlt := index.toNat_lt
    simpa [Immediate.clauses] using Option.isSome_of_eq_some (value?_natural (n := index.toNat)
      (by omega))
  | int v =>
    by_cases hop : op = .const
    · simpa [Immediate.clauses, hop] using Option.isSome_of_eq_some (value?_int v)
    · simp [Immediate.clauses, hop]
  | float bits =>
    by_cases hop : op = .const
    · have hitem : (floatItem bits).value?.isSome := by
        by_cases hreadable : Number.IsReadable bits
        · exact Option.isSome_of_eq_some (value?_floatItem hreadable)
        · obtain ⟨name, hname⟩ := exists_value?_floatItem hreadable
          exact Option.isSome_of_eq_some hname
      simpa [Immediate.clauses, hop] using hitem
    · simp [Immediate.clauses, hop]
  | target => simp [Immediate.clauses, Item.value?]
  | address a =>
    simpa [Immediate.clauses] using Option.isSome_of_eq_some (value?_address a)

/-- Every field of a tree has a value. -/
lemma isSome_value?_nodeClauses {imm : Immediate} {children : List Node} :
    ∀ c ∈ nodeClauses blocks op type imm children, c.item.value?.isSome := by
  have haccess : ∀ c ∈ accessClauses op type, c.item.value?.isSome := by
    rw [accessClauses]
    split <;> simp [Item.value?]
  have hoffset : ∀ c ∈ offsetClauses imm, c.item.value?.isSome := by
    cases imm with
    | offset o => simpa [offsetClauses] using Option.isSome_of_eq_some (value?_offset o)
    | _ => simp [offsetClauses]
  have harguments : ∀ c ∈ argumentClauses op children, c.item.value?.isSome := by
    rw [argumentClauses]
    split <;> simp [Item.value?]
  simp only [nodeClauses, List.forall_mem_append]
  exact ⟨⟨⟨isSome_value?_clauses, haccess⟩, hoffset⟩, harguments⟩

mutual

lemma Node.phrase_hasValues : ∀ n : Node, (n.phrase blocks).HasValues
  | .node _ _ _ children => .phrase isSome_value?_nodeClauses (Node.phrases_hasValues children)

lemma Node.phrases_hasValues : ∀ ns : List Node, ∀ p ∈ Node.phrases blocks ns, p.HasValues
  | [] => by simp [Node.phrases]
  | n :: ns => List.forall_mem_cons.mpr ⟨Node.phrase_hasValues n, Node.phrases_hasValues ns⟩

end

lemma isSome_value?_nameClauses {name : Option String} :
    ∀ c ∈ nameClauses name, c.item.value?.isSome := by
  cases name <;> simp [nameClauses, Item.value?]

/-- Every field in the text of a method has a value. -/
lemma Method.phrase_hasValues (m : Method) : m.phrase.HasValues := by
  refine .phrase ?_ ?_
  · rw [clauses, List.forall_mem_append]
    exact ⟨isSome_value?_nameClauses, by simp [Item.value?]⟩
  · intro p hp
    obtain ⟨b, -, rfl⟩ := List.mem_map.mp hp
    refine .phrase isSome_value?_nameClauses fun p hp => ?_
    obtain ⟨t, -, rfl⟩ := List.mem_map.mp hp
    exact Node.phrase_hasValues t

/-! ## Nesting -/

mutual

/-- How many nodes of a tree are one below the other, the root included. -/
def Node.height : Node → Nat
  | .node _ _ _ children => Node.heights children + 1

/-- The greatest height of some trees. -/
def Node.heights : List Node → Nat
  | [] => 0
  | n :: ns => max (Node.height n) (Node.heights ns)

end

mutual

lemma Node.height_phrase : ∀ n : Node, (n.phrase blocks).height = n.height
  | .node _ _ _ children => by rw [phrase, Phrase.height, height, Node.heights_phrases children]

lemma Node.heights_phrases : ∀ ns : List Node,
    Phrase.heights (Node.phrases blocks ns) = Node.heights ns
  | [] => rfl
  | n :: ns => by
    rw [phrases, Phrase.heights, heights, Node.height_phrase n, Node.heights_phrases ns]

end

lemma Source.Phrase.heights_le_iff {ps : List Phrase} {k : Nat} :
    Phrase.heights ps ≤ k ↔ ∀ p ∈ ps, p.height ≤ k := by
  induction ps with
  | nil => simp [heights]
  | cons p ps ih => rw [heights, Nat.max_le, ih, List.forall_mem_cons]

/-- Above a tree stand a block and the method. -/
lemma Method.height_phrase_le {m : Method} {k : Nat} (h : ∀ n ∈ m.trees, n.height ≤ k) :
    m.phrase.height ≤ k + 2 := by
  refine Nat.succ_le_succ (Phrase.heights_le_iff.mpr fun p hp => ?_)
  obtain ⟨b, hb, rfl⟩ := List.mem_map.mp hp
  refine Nat.succ_le_succ (Phrase.heights_le_iff.mpr fun p hp => ?_)
  obtain ⟨t, ht, rfl⟩ := List.mem_map.mp hp
  rw [Node.height_phrase]
  exact h t (List.mem_flatMap_of_mem hb ht)

/-- **The text of a method is read as an expression that spells the method's phrase.** -/
theorem Method.ofText_render {m : Method} (hnames : m.NamesUnquoted)
    (hheight : ∀ n ∈ m.trees, n.height ≤ 510) :
    ∃ e, Expr.ofText m.render = .ok e ∧ e.Spells m.phrase :=
  Expr.ofTokens_of_phrase m.phrase_hasValues (m.height_phrase_le hheight)
    (m.tokens_render hnames)

end TreeCode
