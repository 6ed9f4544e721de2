import TreeCode.Proofs.Parsing
import TreeCode.Proofs.Wording

/-!
# Printed methods are read back

A well-typed method is read back from its text (`Method.parse_render`).  Only a floating point
constant that is written as a word is in the way: with one the text is refused.
-/

namespace TreeCode

open Source

/-! ## Readable constants -/

/-- The operand that is no tree has a text that gives it back. -/
def Immediate.IsReadable : Immediate → Prop
  | .float bits => Number.IsReadable bits
  | _ => True

/-- A tree without a constant that is positive infinity or no number. -/
inductive Node.IsReadable : Node → Prop
  | node {op : Opcode} {type : DataType} {imm : Immediate} {children : List Node}
      (immediate : imm.IsReadable) (operands : ∀ c ∈ children, IsReadable c) :
      IsReadable (.node op type imm children)

/-- What reading something back gives: the thing itself if it is readable, and else an error at
some place. -/
structure ReadsBack {α : Type} (x : Except ParseError α) (readable : Prop) (a : α) : Prop where
  ok : readable → x = .ok a
  malformed : ¬readable → ∃ position defect, x = .error (.malformed position defect)

namespace ReadsBack

variable {α β : Type} {x : Except ParseError α} {readable : Prop} {a : α}

lemma of_ok (h : x = .ok a) (hreadable : readable) : ReadsBack x readable a :=
  ⟨fun _ => h, fun hnot => absurd hreadable hnot⟩

lemma congr {readable' : Prop} (h : ReadsBack x readable a) (hiff : readable' ↔ readable) :
    ReadsBack x readable' a := by
  rwa [hiff]

/-- Something read back, and then something else. -/
lemma bind {readable' : Prop} {f : α → Except ParseError β} {b : β} (h : ReadsBack x readable a)
    (hf : ReadsBack (f a) readable' b) : ReadsBack (x >>= f) (readable ∧ readable') b := by
  by_cases hreadable : readable
  · rw [h.ok hreadable, Except.ok_bind]
    exact hf.congr (and_iff_right hreadable)
  · obtain ⟨position, defect, hx⟩ := h.malformed hreadable
    exact ⟨fun hboth => absurd hboth.1 hreadable, fun _ => ⟨position, defect, by rw [hx]; rfl⟩⟩

/-- Something read back, and then a step that cannot fail. -/
lemma bind_ok {f : α → Except ParseError β} {b : β} (h : ReadsBack x readable a)
    (hf : f a = .ok b) : ReadsBack (x >>= f) readable b :=
  (h.bind (of_ok hf trivial)).congr (and_iff_left trivial).symm

/-- Members of a list are read back one after the other. -/
lemma mapM {γ : Type} {R : β → Prop} {f : γ → Except ParseError β} {cs : List γ} {bs : List β}
    (h : List.Forall₂ (fun c b => ReadsBack (f c) (R b) b) cs bs) :
    ReadsBack (cs.mapM f) (∀ b ∈ bs, R b) bs := by
  induction h with
  | nil => exact of_ok rfl (by simp)
  | cons hb _ ih =>
    rw [List.mapM_cons]
    refine (hb.bind (ih.bind_ok ?_)).congr List.forall_mem_cons
    rfl

end ReadsBack

/-! ## Fields -/

namespace Source.Form

variable {f : Form} {clauses : List Clause} {allowed : List String} {c : Clause}

/-- The fields of an expression are the ones that are written. -/
lemma checkFields_of_spells (h : List.Forall₂ Field.Spells f.fields clauses)
    (hkeys : ∀ c ∈ clauses, ∃ key ∈ allowed, c.key = some key) :
    f.checkFields allowed = .ok () := by
  refine checkFields_eq_ok_iff.mpr fun field hfield => ?_
  obtain ⟨c, hc, hspells⟩ := exists_mem_of_forall₂ h.flip field hfield
  obtain ⟨key, hkey, hclause⟩ := hkeys c hc
  exact ⟨key, hkey, hspells.key.trans hclause⟩

/-- A field is found where it is written. -/
lemma field?_of_spells (h : List.Forall₂ Field.Spells f.fields clauses) (key : String) :
    Option.Rel Field.Spells (f.field? key) (clauses.find? fun c => c.key == some key) := by
  unfold field?
  generalize f.fields = fields at h
  induction h with
  | nil => exact .none
  | @cons field c fields clauses hspells _ ih =>
    rw [List.find?_cons, List.find?_cons, hspells.key]
    cases c.key == some key with
    | true => exact .some hspells
    | false => exact ih

lemma exists_field? (key : String) (h : List.Forall₂ Field.Spells f.fields clauses)
    (hfind : clauses.find? (fun c => c.key == some key) = some c) :
    ∃ field, f.field? key = some field ∧ field.Spells c := by
  have hfield := field?_of_spells h key
  rw [hfind] at hfield
  cases hfound : f.field? key with
  | none =>
    rw [hfound] at hfield
    cases hfield
  | some field =>
    rw [hfound] at hfield
    cases hfield with
    | some hspells => exact ⟨field, rfl, hspells⟩

lemma field?_eq_none (key : String) (h : List.Forall₂ Field.Spells f.fields clauses)
    (hfind : clauses.find? (fun c => c.key == some key) = none) : f.field? key = none := by
  have hfield := field?_of_spells h key
  rw [hfind] at hfield
  cases hfound : f.field? key with
  | none => rfl
  | some field =>
    rw [hfound] at hfield
    cases hfield

lemma int?_of_spells (key : String) {v : Int64} {item : Item}
    (h : List.Forall₂ Field.Spells f.fields clauses)
    (hfind : clauses.find? (fun c => c.key == some key) = some ⟨some key, item⟩)
    (hvalue : item.value? = some (.int v)) :
    ∃ position, f.int? key = .ok (some (v, position)) := by
  obtain ⟨field, hfield, hspells⟩ := exists_field? key h hfind
  have hint : field.value = .int v := Option.some.inj (hspells.value.symm.trans hvalue)
  exact ⟨field.position, by simp only [int?, hfield, hint]⟩

lemma int_of_spells (key : String) {v : Int64} {item : Item}
    (h : List.Forall₂ Field.Spells f.fields clauses)
    (hfind : clauses.find? (fun c => c.key == some key) = some ⟨some key, item⟩)
    (hvalue : item.value? = some (.int v)) : ∃ position, f.int key = .ok (v, position) := by
  obtain ⟨position, hint⟩ := int?_of_spells key h hfind hvalue
  exact ⟨position, by simp only [int, hint, Except.ok_bind]⟩

lemma name?_of_spells (key : String) {name : String}
    (h : List.Forall₂ Field.Spells f.fields clauses)
    (hfind : clauses.find? (fun c => c.key == some key) = some ⟨some key, .text name⟩) :
    f.name? key = .ok (some name) := by
  obtain ⟨field, hfield, hspells⟩ := exists_field? key h hfind
  have htext : field.value = .text name := Option.some.inj hspells.value.symm
  simp only [name?, hfield, htext, Value.name?]

lemma type?_of_spells (key : String) {type : DataType}
    (h : List.Forall₂ Field.Spells f.fields clauses)
    (hfind : clauses.find? (fun c => c.key == some key) = some ⟨some key, .word type.name⟩) :
    f.type? key = .ok (some type) := by
  obtain ⟨field, hfield, hspells⟩ := exists_field? key h hfind
  have hword : field.value = .ident type.name := Option.some.inj hspells.value.symm
  simp only [type?, hfield, DataType.ofValue, hword, Value.name?, DataType.ofName?_name]
  rfl

/-- A value without a key is the only one if no other one is written. -/
lemma positional_of_spells {item : Item}
    (h : List.Forall₂ Field.Spells f.fields [⟨none, item⟩]) :
    ∃ field, f.fields = [field] ∧ f.positional = [field] ∧ field.key = none ∧
      item.value? = some field.value := by
  obtain ⟨field, rest, hspells, hrest, hfields⟩ := List.forall₂_cons_right_iff.mp h
  obtain rfl := List.forall₂_nil_right_iff.mp hrest
  refine ⟨field, hfields, ?_, hspells.key, hspells.value⟩
  rw [positional, hfields]
  simp [hspells.key]

end Source.Form

/-- A list of type names is read as the types. -/
lemma mapM_ofValue (position : Nat) (types : List DataType) :
    ((types.map DataType.name).map Value.ident).mapM (DataType.ofValue position) = .ok types := by
  rw [List.map_map, Except.mapM_eq_ok_iff, List.forall₂_map_left_iff]
  exact List.forall₂_same.mpr fun t _ => by
    simp only [Function.comp_apply, DataType.ofValue, Value.name?, DataType.ofName?_name]

/-! ## Rules -/

namespace DataType

variable {type : DataType}

lemma isVector_of_isWord (h : type.isWord) : type.isVector = false := by
  cases type <;> first | rfl | cases h

lemma isVector_of_isFloating (h : type.isFloating) : type.isVector = false := by
  cases type <;> first | rfl | cases h

end DataType

/-- What the name of an opcode at a type declares. -/
def Declared.ofType (type : DataType) : Declared :=
  if type.isVector then .someVector else .known type

namespace Opcode

/-- Whether an opcode may be written at a type. -/
def isLegal (op : Opcode) (type : DataType) : Bool :=
  if type.isVector then op.legalOnVectors else type != .noType && op.legalAt type

lemma decode?_of_isLegal : ∀ op ∈ stemmed, ∀ type ∈ DataType.all, op.isLegal type →
    decode? (op.mnemonic type) = some (op, .ofType type) := by
  decide +kernel

lemma decode?_ifcmp : ∀ c ∈ Condition.all, ∀ type ∈ [DataType.int32, .int64],
    decode? ((ifcmp c).mnemonic type) = some (ifcmp c, .ofType type) := by
  decide +kernel

lemma isLegal_of_accepts {op : Opcode} {type : DataType} {operands : List DataType}
    (h : op.Accepts type operands) (hstemmed : op ∈ stemmed) (hnone : type ≠ .noType) :
    op.isLegal type := by
  cases op with
  | goto | ifcmp => simp [stemmed] at hstemmed
  | _ =>
    cases type <;>
      first
      | rfl
      | contradiction
      | simp [Accepts, DataType.isScalar, DataType.isWord, DataType.isFloating,
          DataType.isVector, DataType.lane?, DataType.isReturned] at h

/-- The name of an opcode is read as the opcode. -/
lemma decode?_mnemonic {op : Opcode} {type : DataType} {operands : List DataType}
    (h : op.Accepts type operands) : decode? (op.mnemonic type) = some (op, .ofType type) := by
  by_cases hstemmed : op ∈ stemmed
  · by_cases hnone : type = .noType
    · subst hnone
      cases op with
      | ret => rfl
      | call => rfl
      | _ => simp [Accepts, DataType.isScalar, DataType.isWord, DataType.isFloating,
          DataType.isVector, DataType.lane?, stemmed] at h hstemmed
    · exact decode?_of_isLegal op hstemmed type type.mem_all (isLegal_of_accepts h hstemmed hnone)
  · cases op with
    | goto =>
      obtain ⟨rfl, -⟩ := h
      rfl
    | ifcmp c =>
      refine decode?_ifcmp c (by cases c <;> decide) type ?_
      obtain ⟨hword, -⟩ := h
      cases type <;> simp_all [DataType.isWord]
    | _ => simp [stemmed] at hstemmed

end Opcode

namespace Scope

variable {m : Method} {f : Form} {op : Opcode} {type : DataType} {imm : Immediate}
  {children : List Node}

/-- The label of a branch is the name of the block it goes to. -/
lemma targetLabel_of_labels {index : Nat} {name : String}
    (h : m.scope.labels[index]? = some (some name)) : targetLabel m.blocks index = name := by
  rw [Method.scope, List.getElem?_map, Option.map_eq_some_iff] at h
  obtain ⟨b, hb, hname⟩ := h
  rw [targetLabel, hb, Option.map_some, Option.getD_some, Block.label, hname]

lemma findIdx?_of_labels (htyped : m.WellTyped) {index : Nat} {name : String}
    (h : m.scope.labels[index]? = some (some name)) :
    m.scope.labels.findIdx? (· == some name) = some index := by
  have hnodup : (m.scope.labels.filterMap id).Nodup := by
    rw [Method.scope, List.filterMap_map, Function.id_comp]
    exact htyped.names_nodup
  obtain ⟨hlt, hlabel⟩ := List.getElem?_eq_some_iff.mp h
  refine List.findIdx?_eq_some_iff_getElem.mpr ⟨hlt, by simp [hlabel], fun j hj => ?_⟩
  rw [beq_iff_eq]
  intro heq
  have hindex := index_unique_of_nodup hnodup h
    (List.getElem?_eq_some_iff.mpr ⟨Nat.lt_trans hj hlt, heq⟩)
  omega

/-- A branch that is written is one to the block of its label. -/
lemma target_of_spells (htyped : m.WellTyped) {index : Nat} {name : String}
    (hlabel : m.scope.labels[index]? = some (some name))
    (h : List.Forall₂ Field.Spells f.fields
      [⟨some "target", .text (targetLabel m.blocks index)⟩]) :
    m.scope.target f = .ok index := by
  refine target_eq_ok_iff.mpr ⟨name, ?_, findIdx?_of_labels htyped hlabel⟩
  rw [← targetLabel_of_labels hlabel]
  exact Source.Form.name?_of_spells "target" h rfl

lemma declared_ofType (h : type.isVector = false) : Declared.ofType type = .known type := by
  rw [Declared.ofType, h]
  rfl

lemma declared_of_isScalar (h : type.isScalar) : Declared.ofType type = .known type :=
  declared_ofType (DataType.isScalar_iff.mp h).2

lemma declared_of_isWord (h : type.isWord) : Declared.ofType type = .known type :=
  declared_ofType (DataType.isVector_of_isWord h)

/-- The type and the offset of an access are the ones that are written. -/
lemma access_of_spells {o : Int32} (haccess : op = .loadIndirect ∨ op = .storeIndirect)
    (h : List.Forall₂ Field.Spells f.fields (nodeClauses m.blocks op type (.offset o) children)) :
    accessType f (.ofType type) = .ok type ∧ accessOffset f = .ok o := by
  have hlow := o.le_toInt
  have hhigh := o.toInt_lt
  have hoffset : (Int64.ofInt o.toInt).toInt = o.toInt :=
    Int64.toInt_ofInt_of_le (by omega) (by omega)
  have harguments : argumentClauses op children = [] := by
    rcases haccess with rfl | rfl <;> rfl
  have hop : (op == .loadIndirect || op == .storeIndirect) = true := by
    rcases haccess with rfl | rfl <;> rfl
  simp only [nodeClauses, Immediate.clauses, offsetClauses, accessClauses, harguments, hop,
    Bool.and_true, List.nil_append, List.append_nil] at h
  have hfind : (((if type.isVector then [⟨some "type", .word type.name⟩] else []) ++
      [⟨some "offset", .number (toString o.toInt)⟩] : List Clause).find?
        fun c => c.key == some "offset") = some ⟨some "offset", .number (toString o.toInt)⟩ := by
    cases type.isVector <;> rfl
  obtain ⟨position, hint⟩ := Source.Form.int?_of_spells "offset" h hfind (value?_offset o)
  refine ⟨?_, accessOffset_eq_ok_iff.mpr (.inr ⟨_, position, hint, hoffset⟩)⟩
  cases hvector : type.isVector with
  | false =>
    simp only [hvector, Bool.false_eq_true, if_false, List.nil_append] at h
    rw [declared_ofType hvector]
    exact accessType_eq_ok_iff.mpr ⟨Source.Form.checkFields_of_spells h (by simp), rfl⟩
  | true =>
    simp only [hvector, if_true, List.singleton_append] at h
    rw [Declared.ofType, if_pos hvector]
    exact accessType_eq_ok_iff.mpr ⟨Source.Form.checkFields_of_spells h (by simp),
      Source.Form.type?_of_spells "type" h rfl, hvector⟩

/-- Most nodes have no fields but the operand that is no tree. -/
lemma nodeClauses_eq {blocks : List Block}
    (haccess : (op == .loadIndirect || op == .storeIndirect) = false)
    (hcall : op ≠ .call) (hoffset : offsetClauses imm = []) :
    nodeClauses blocks op type imm children = imm.clauses blocks op := by
  simp [nodeClauses, accessClauses, argumentClauses, haccess, hcall, hoffset]

/-- A node whose operands are all trees has no fields. -/
lemma checkFields_of_plain (haccess : (op == .loadIndirect || op == .storeIndirect) = false)
    (hcall : op ≠ .call)
    (h : List.Forall₂ Field.Spells f.fields (nodeClauses m.blocks op type .none children))
    (allowed : List String) : f.checkFields allowed = .ok () := by
  rw [nodeClauses_eq haccess hcall rfl] at h
  exact Source.Form.checkFields_of_spells h (by simp [Immediate.clauses])

/-- A load of a parameter gives its index. -/
lemma load_of_spells {i : UInt32} (hparam : m.scope.params[i.toNat]? = some type)
    (h : List.Forall₂ Field.Spells f.fields (nodeClauses m.blocks .load type (.parm i) [])) :
    m.scope.loadRule f type [] = .ok (.node .load type (.parm i) []) := by
  rw [nodeClauses_eq rfl (by simp) rfl] at h
  have hlt := i.toNat_lt
  have hindex : (Int64.ofInt i.toNat).toInt = i.toNat :=
    Int64.toInt_ofInt_of_le (by omega) (by omega)
  have hparam' : m.scope.param? (Int64.ofInt i.toNat) = some type := by
    rw [param?, hindex, if_neg (by omega), Int.toNat_natCast, hparam]
  have hword : UInt32.ofInt (i.toNat : Int) = i := by
    refine UInt32.toNat_inj.mp ?_
    rw [UInt32.ofInt, UInt32.toNat_ofNat']
    omega
  obtain ⟨position, hint⟩ := Source.Form.int_of_spells "parm" h rfl
    (value?_natural (n := i.toNat) (by omega))
  refine loadRule_eq_ok_iff.mpr ⟨Source.Form.checkFields_of_spells h ?_, rfl, _, position, hint,
    hparam', ?_⟩
  · simp [Immediate.clauses]
  · rw [hindex, hword]

/-- The only field of a constant is its value. -/
lemma const_of_spells {item : Item} {v : Value}
    (h : List.Forall₂ Field.Spells f.fields [⟨none, item⟩]) (hvalue : item.value? = some v)
    (hliteral : Literal type v imm) : constRule f type [] = .ok (.node .const type imm []) := by
  obtain ⟨field, hfields, hpos, hkey, hitem⟩ := Source.Form.positional_of_spells h
  obtain rfl := Option.some.inj (hvalue.symm.trans hitem)
  exact constRule_eq_ok_iff.mpr ⟨by simp [hfields, hkey], rfl, field, hpos, _, hliteral, rfl⟩

/-- Arithmetic without fields is that of the type, or of the vectors it is applied to. -/
lemma arithmetic_of_spells (hnumber : type.isWord ∨ type.isFloating ∨ type.isVector)
    (hdiv : op = .div → type.isFloating ∨ type = .vector .f32 ∨ type = .vector .f64)
    (htypes : children.map Node.type = [type, type])
    (h : List.Forall₂ Field.Spells f.fields []) :
    (match Declared.ofType type with
      | .known t => binaryRule f op t children
      | .someVector => vectorRule f op children) = .ok (.node op type .none children) := by
  have hfields (allowed : List String) : f.checkFields allowed = .ok () :=
    Source.Form.checkFields_of_spells h (by simp)
  cases type with
  | vector lane =>
    refine vectorRule_eq_ok_iff.mpr ⟨hfields _, lane, .inl ?_, fun hop => ?_, htypes, rfl⟩
    · rw [Source.Form.type?, Source.Form.field?_eq_none "type" h rfl]
    · rcases hdiv hop with hfloat | hlane | hlane
      · cases hfloat
      · cases hlane
        rfl
      · cases hlane
        rfl
  | _ => exact binaryRule_eq_ok_iff.mpr ⟨hfields _, htypes, rfl⟩

/-- A call lists the types of its arguments, if it has any. -/
lemma arguments_of_spells (clauses : List Clause) (hother : ∀ c ∈ clauses, c.key ≠ some "args")
    (h : List.Forall₂ Field.Spells f.fields (clauses ++ argumentClauses .call children)) :
    Node.ArgumentsWrittenBy f children := by
  intro field hfield
  have hbefore : clauses.find? (fun c => c.key == some "args") = none :=
    List.find?_eq_none.mpr fun c hc => by simpa using hother c hc
  cases children with
  | nil =>
    have hnone := Source.Form.field?_eq_none "args" h (by
      rw [List.find?_append, hbefore]
      rfl)
    rw [hnone] at hfield
    cases hfield
  | cons child children =>
    obtain ⟨found, hfound, hspells⟩ := Source.Form.exists_field? "args" h
      (by rw [List.find?_append, hbefore]; rfl)
    obtain rfl : found = field := Option.some.inj (hfound.symm.trans hfield)
    exact ⟨_, (Option.some.inj hspells.value).symm, mapM_ofValue _ _⟩

lemma call_of_spells {a : UInt64} (hrange : a.toNat < 2 ^ 63)
    (hscalars : ∀ t ∈ children.map Node.type, t.isScalar)
    (h : List.Forall₂ Field.Spells f.fields
      (nodeClauses m.blocks .call type (.address a) children)) :
    callRule f type children = .ok (.node .call type (.address a) children) := by
  have hvalue : (Int64.ofInt a.toNat).toInt = a.toNat :=
    Int64.toInt_ofInt_of_le (by omega) (by omega)
  have hword : (Int64.ofInt a.toNat).toUInt64 = a := by
    refine UInt64.toNat_inj.mp ?_
    rw [Int64.toNat_toUInt64_of_le (Int64.le_iff_toInt_le.mpr (by rw [hvalue]; simp)),
      Int64.toNatClampNeg, hvalue, Int.toNat_natCast]
  have hclauses : nodeClauses m.blocks .call type (.address a) children =
      ⟨some "address", .number (Text.hex a.toNat)⟩ :: argumentClauses .call children := by
    simp [nodeClauses, Immediate.clauses, accessClauses, offsetClauses]
  rw [hclauses] at h
  obtain ⟨position, hint⟩ :=
    Source.Form.int_of_spells "address" h rfl (value?_address a)
  refine callRule_eq_ok_iff.mpr ⟨Source.Form.checkFields_of_spells h ?_, _, position, hint, ?_,
    arguments_of_spells [_] (by simp) h, ?_, ?_⟩
  · rw [argumentClauses]
    split <;> simp
  · rw [hvalue]
    omega
  · intro c hc
    exact (DataType.isScalar_iff.mp (hscalars _ (List.mem_map_of_mem hc))).2
  · rw [hword]

/-- The rule of an opcode gives back a node whose fields are written, if its constant is
readable. -/
theorem rule_of_spells (htyped : m.WellTyped) (haccepts : op.Accepts type (children.map Node.type))
    (hfits : imm.Fits m.scope op type) (hreturns : op = .ret → type = m.scope.returnType)
    (hfields : List.Forall₂ Field.Spells f.fields (nodeClauses m.blocks op type imm children))
    (hreadable : imm.IsReadable) :
    m.scope.rule f op (.ofType type) children = .ok (.node op type imm children) := by
  cases op with
  | load =>
    obtain ⟨i, rfl, hparam⟩ := hfits
    obtain ⟨hscalar, hnil⟩ := haccepts
    obtain rfl := List.map_eq_nil_iff.mp hnil
    rw [declared_of_isScalar hscalar]
    exact load_of_spells hparam hfields
  | const =>
    obtain ⟨hscalar, hnil⟩ := haccepts
    obtain rfl := List.map_eq_nil_iff.mp hnil
    rw [declared_of_isScalar hscalar]
    rcases hfits with ⟨hfloat, bits, rfl⟩ | ⟨hinteger, v, rfl, hadmits⟩
    · rw [nodeClauses_eq rfl (by simp) rfl, Immediate.clauses, if_pos rfl] at hfields
      exact const_of_spells hfields (value?_floatItem hreadable) (.float hfloat)
    · rw [nodeClauses_eq rfl (by simp) rfl, Immediate.clauses, if_pos rfl] at hfields
      exact const_of_spells hfields (value?_int v) (.int hinteger hadmits)
  | loadIndirect =>
    obtain ⟨o, rfl⟩ := hfits
    obtain ⟨htype, hoffset⟩ := access_of_spells (.inl rfl) hfields
    exact loadIndirectRule_eq_ok_iff.mpr ⟨type, htype, haccepts.2, o, hoffset, rfl⟩
  | storeIndirect =>
    obtain ⟨o, rfl⟩ := hfits
    obtain ⟨htype, hoffset⟩ := access_of_spells (.inr rfl) hfields
    exact storeIndirectRule_eq_ok_iff.mpr ⟨type, htype, haccepts.2, o, hoffset, rfl⟩
  | add | sub | mul =>
    obtain ⟨hnumber, htypes⟩ := haccepts
    obtain rfl := hfits
    rw [nodeClauses_eq rfl (by simp) rfl] at hfields
    exact arithmetic_of_spells hnumber (by simp) htypes hfields
  | div =>
    obtain ⟨hnumber, htypes⟩ := haccepts
    obtain rfl := hfits
    rw [nodeClauses_eq rfl (by simp) rfl] at hfields
    refine arithmetic_of_spells (.inr ?_) (fun _ => hnumber) htypes hfields
    rcases hnumber with hfloat | rfl | rfl
    · exact .inl hfloat
    · exact .inr rfl
    · exact .inr rfl
  | and | or | xor =>
    obtain ⟨hword, htypes⟩ := haccepts
    obtain rfl := hfits
    rw [declared_of_isWord hword]
    exact binaryRule_eq_ok_iff.mpr ⟨checkFields_of_plain rfl (by simp) hfields _, htypes, rfl⟩
  | shl | shr | ushr | rol =>
    obtain ⟨hword, htypes⟩ := haccepts
    obtain rfl := hfits
    rw [declared_of_isWord hword]
    exact shiftRule_eq_ok_iff.mpr ⟨checkFields_of_plain rfl (by simp) hfields _, htypes, rfl⟩
  | neg =>
    obtain ⟨hword, htypes⟩ := haccepts
    obtain rfl := hfits
    rw [declared_of_isWord hword]
    exact unaryRule_eq_ok_iff.mpr ⟨checkFields_of_plain rfl (by simp) hfields _, htypes, rfl⟩
  | sqrt =>
    obtain ⟨hfloat, htypes⟩ := haccepts
    obtain rfl := hfits
    rw [declared_ofType (DataType.isVector_of_isFloating hfloat)]
    exact unaryRule_eq_ok_iff.mpr ⟨checkFields_of_plain rfl (by simp) hfields _, htypes, rfl⟩
  | ret =>
    obtain rfl := hfits
    have hcheck := checkFields_of_plain rfl (by simp) hfields []
    -- a return of nothing has the type of no value, which declares no operand
    rcases haccepts with ⟨rfl, htypes⟩ | ⟨hreturned, htypes⟩
    · exact returnRule_eq_ok_iff.mpr ⟨hcheck, hreturns rfl, htypes, rfl⟩
    · have hscalar := DataType.isScalar_of_isReturned hreturned
      rw [declared_of_isScalar hscalar]
      exact returnRule_eq_ok_iff.mpr ⟨hcheck, hreturns rfl, by
        rw [Declared.scalar, if_neg (DataType.isScalar_iff.mp hscalar).1, htypes], rfl⟩
  | goto =>
    obtain ⟨rfl, hnil⟩ := haccepts
    obtain ⟨index, name, rfl, hlabel⟩ := hfits
    rw [nodeClauses_eq rfl (by simp) rfl] at hfields
    exact gotoRule_eq_ok_iff.mpr ⟨Source.Form.checkFields_of_spells hfields (by
      simp [Immediate.clauses]), List.map_eq_nil_iff.mp hnil, index,
      target_of_spells htyped hlabel hfields, rfl⟩
  | ifcmp c =>
    obtain ⟨hword, htypes⟩ := haccepts
    obtain ⟨index, name, rfl, hlabel⟩ := hfits
    rw [nodeClauses_eq rfl (by simp) rfl] at hfields
    rw [declared_of_isWord hword]
    exact compareRule_eq_ok_iff.mpr ⟨Source.Form.checkFields_of_spells hfields (by
      simp [Immediate.clauses]), htypes, index, target_of_spells htyped hlabel hfields, rfl⟩
  | call =>
    obtain ⟨htype, hscalars⟩ := haccepts
    obtain ⟨a, rfl, hrange⟩ := hfits
    have hvector : type.isVector = false := by
      rcases htype with rfl | hreturned
      · rfl
      · exact (DataType.isScalar_iff.mp (DataType.isScalar_of_isReturned hreturned)).2
    rw [declared_ofType hvector]
    exact call_of_spells hrange hscalars hfields

/-- A constant that is written as a word is refused. -/
lemma constRule_of_ident {field : Field} {name : String} (hfields : f.fields = [field])
    (hkey : field.key = none) (hvalue : field.value = .ident name) :
    constRule f type [] = .error (.malformed field.position (.invalidLiteral f.head)) := by
  simp [constRule, Source.Form.positional, Source.Form.noOperand, hfields, hkey, hvalue]

/-- The rule of an opcode gives back a node whose fields are written, as long as its constant is
readable. -/
theorem rule_readsBack (htyped : m.WellTyped) (haccepts : op.Accepts type (children.map Node.type))
    (hfits : imm.Fits m.scope op type) (hreturns : op = .ret → type = m.scope.returnType)
    (hfields : List.Forall₂ Field.Spells f.fields (nodeClauses m.blocks op type imm children)) :
    ReadsBack (m.scope.rule f op (.ofType type) children) imm.IsReadable
      (.node op type imm children) := by
  refine ⟨rule_of_spells htyped haccepts hfits hreturns hfields, fun hreadable => ?_⟩
  cases imm with
  | float bits =>
    obtain rfl : op = .const := by
      cases op <;> simp [Immediate.Fits] at hfits ⊢
    obtain ⟨hscalar, hnil⟩ := haccepts
    obtain rfl := List.map_eq_nil_iff.mp hnil
    rw [nodeClauses_eq rfl (by simp) rfl, Immediate.clauses, if_pos rfl] at hfields
    obtain ⟨field, hfield, -, hkey, hvalue⟩ := Source.Form.positional_of_spells hfields
    obtain ⟨name, hname⟩ := exists_value?_floatItem hreadable
    have hword : field.value = .ident name := Option.some.inj (hvalue.symm.trans hname)
    exact ⟨_, _, constRule_of_ident hfield hkey hword⟩
  | _ => exact absurd trivial hreadable

/-! ## Trees -/

lemma isReadable_node_iff : (Node.node op type imm children).IsReadable ↔
    (∀ c ∈ children, c.IsReadable) ∧ imm.IsReadable := by
  constructor
  · rintro ⟨himm, hchildren⟩
    exact ⟨hchildren, himm⟩
  · rintro ⟨hchildren, himm⟩
    exact .node himm hchildren

mutual

/-- A tree is read back from an expression that spells it. -/
theorem tree_of_spells (htyped : m.WellTyped) : ∀ {n : Node} {e : Expr}, n.WellTyped m.scope →
    e.Spells (n.phrase m.blocks) → ReadsBack (m.scope.tree e) n.IsReadable n
  | .node op type imm children, .expr f es, hnode, hspells => by
    obtain ⟨haccepts, hfits, hreturns, hvalues, hoperands⟩ := hnode
    cases hspells with
    | expr hhead hfields hchildren =>
      have hdecode := Opcode.decode?_mnemonic haccepts
      rw [← hhead] at hdecode
      rw [tree]
      simp only [hdecode]
      exact ((operands_of_spells htyped hoperands hvalues hchildren).bind
        (rule_readsBack htyped haccepts hfits hreturns hfields)).congr isReadable_node_iff

/-- The operands of a tree are read back. -/
theorem operands_of_spells (htyped : m.WellTyped) : ∀ {ns : List Node} {es : List Expr},
    (∀ n ∈ ns, n.WellTyped m.scope) → (∀ n ∈ ns, n.producesValue) →
      List.Forall₂ Expr.Spells es (Node.phrases m.blocks ns) →
        ReadsBack (m.scope.operands es) (∀ n ∈ ns, n.IsReadable) ns
  | [], es, _, _, hspells => by
    obtain rfl := List.forall₂_nil_right_iff.mp hspells
    exact .of_ok rfl (by simp)
  | n :: ns, es, hnodes, hvalues, hspells => by
    obtain ⟨hnode, hnodes⟩ := List.forall_mem_cons.mp hnodes
    obtain ⟨hvalue, hvalues⟩ := List.forall_mem_cons.mp hvalues
    obtain ⟨e, es, hfirst, hrest, rfl⟩ := List.forall₂_cons_right_iff.mp hspells
    have htree := tree_of_spells htyped hnode hfirst
    have hoperands := operands_of_spells htyped hnodes hvalues hrest
    rw [operands]
    refine (htree.bind ?_).congr List.forall_mem_cons
    rw [hvalue]
    exact hoperands.bind_ok rfl

end

end Scope

/-! ## Methods -/

/-- The name of a block or method is the one that is written. -/
lemma Source.Form.name?_of_nameClauses {f : Form} {name : Option String} (after : List Clause)
    (hafter : ∀ c ∈ after, c.key ≠ some "name")
    (h : List.Forall₂ Field.Spells f.fields (nameClauses name ++ after)) :
    f.name? "name" = .ok name := by
  cases name with
  | some name => exact name?_of_spells "name" h rfl
  | none =>
    have hnone : f.field? "name" = none := by
      refine field?_eq_none "name" h (List.find?_eq_none.mpr fun c hc => ?_)
      simpa using hafter c hc
    rw [name?, hnone]

lemma isBlock_of_spells {blocks : List Block} {b : Block} {e : Expr}
    (h : e.Spells (b.phrase blocks)) : e.form.IsBlock b.name ∧
      List.Forall₂ Expr.Spells e.children (b.trees.map (Node.phrase blocks)) := by
  cases h with
  | expr hhead hfields hchildren =>
    have hname := Source.Form.name?_of_nameClauses [] (by simp) (by simpa using hfields)
    refine ⟨⟨hhead, Source.Form.checkFields_of_spells hfields ?_, hname⟩, hchildren⟩
    cases b.name <;> simp [nameClauses]

namespace Method

variable {m : Method} {e : Expr}

lemma isMethod_of_spells (h : e.Spells m.phrase) : e.form.IsMethod m ∧
    List.Forall₂ Expr.Spells e.children (m.blocks.map (Block.phrase m.blocks)) := by
  cases h with
  | @expr form es _ _ _ hhead hfields hchildren =>
    rw [clauses] at hfields
    have hname := Source.Form.name?_of_nameClauses _ (by simp) hfields
    have hreturn : form.type? "return" = .ok (some m.returnType) := by
      refine Source.Form.type?_of_spells "return" hfields ?_
      cases m.name <;> rfl
    have hparams : paramTypes form = .ok m.params := by
      obtain ⟨field, hfield, hspells⟩ :=
        Source.Form.exists_field? "args"
          (c := ⟨some "args", .words (m.params.map DataType.name)⟩) hfields (by
            cases m.name <;> rfl)
      have hlist : field.value = .list ((m.params.map DataType.name).map .ident) :=
        (Option.some.inj hspells.value).symm
      simp only [paramTypes, hfield, hlist, mapM_ofValue]
    refine ⟨⟨hhead, Source.Form.checkFields_of_spells hfields ?_, hname, hreturn, hparams⟩,
      hchildren⟩
    cases m.name <;> simp [nameClauses]

/-- Once its head, fields and labels are right, only the trees of a method can be wrong. -/
lemma ofExpr_eq (hmethod : e.form.IsMethod m) (hnone : .noType ∉ m.params)
    (hchildren : e.children ≠ []) (hnodup : (m.blocks.filterMap Block.name).Nodup)
    (hblocks : List.Forall₂ (fun e b => e.form.IsBlock b.name) e.children m.blocks) :
    ofExpr e = (e.children.mapM (fun block => m.scope.trees block.children) >>= fun bodies =>
      .ok ⟨m.name, m.returnType, m.params,
        ((m.blocks.map Block.name).zip bodies).map fun p => ⟨p.1, p.2⟩⟩) := by
  have hlabels : blockLabels [] e.children = .ok (m.blocks.map Block.name) := by
    refine (blockLabels_eq_ok_iff (by simp)).mpr
      ⟨_, rfl, ?_, List.forall₂_map_right_iff.mpr hblocks⟩
    rwa [List.filterMap_map, Function.id_comp]
  rw [ofExpr]
  simp only [hmethod.head, hmethod.fields, hmethod.name, hmethod.returnType, hmethod.params,
    List.contains_eq_mem, hnone, List.isEmpty_eq_false_iff.mpr hchildren, hlabels, Except.ok_bind,
    ne_eq, not_true_eq_false, decide_false, Bool.false_eq_true, if_false]
  rfl

/-- A method is read back from an expression that spells it. -/
lemma ofExpr_of_spells (htyped : m.WellTyped) (h : e.Spells m.phrase) :
    ReadsBack (ofExpr e) (∀ n ∈ m.trees, n.IsReadable) m := by
  obtain ⟨hmethod, hspells⟩ := isMethod_of_spells h
  rw [List.forall₂_map_right_iff] at hspells
  have hblocks : List.Forall₂ (fun e b => e.form.IsBlock b.name) e.children m.blocks :=
    hspells.imp fun _ _ hblock => (isBlock_of_spells hblock).1
  have hchildren : e.children ≠ [] := by
    intro hnil
    rw [hnil] at hspells
    exact htyped.blocks_ne_nil (List.forall₂_nil_left_iff.mp hspells)
  have hbodies : ReadsBack (e.children.mapM fun block => m.scope.trees block.children)
      (∀ trees ∈ m.blocks.map Block.trees, ∀ n ∈ trees, n.IsReadable)
      (m.blocks.map Block.trees) := by
    refine ReadsBack.mapM (List.forall₂_map_right_iff.mpr ?_)
    have hall := (List.forall₂_and_left (p := (· ∈ m.blocks)) _ _).mpr ⟨fun _ => id, hspells.flip⟩
    refine (hall.imp fun b block hblock => ?_).flip
    have htrees := List.forall₂_map_right_iff.mp (isBlock_of_spells hblock.2).2
    have hnodes := (List.forall₂_and_left (p := (· ∈ b.trees)) _ _).mpr ⟨fun _ => id, htrees.flip⟩
    exact ReadsBack.mapM (hnodes.imp fun n _ hn =>
      Scope.tree_of_spells htyped (htyped.trees_typed b hblock.1 n hn.1) hn.2).flip
  rw [ofExpr_eq hmethod htyped.params_typed hchildren htyped.names_nodup hblocks]
  refine (hbodies.bind_ok ?_).congr ?_
  · rw [List.zip_map', List.map_map]
    exact congrArg (fun blocks => Except.ok (Method.mk _ _ _ blocks)) (List.map_id' m.blocks)
  · simp only [Method.trees, List.mem_flatMap, List.mem_map]
    constructor
    · rintro h _ ⟨b, hb, rfl⟩ n hn
      exact h n ⟨b, hb, hn⟩
    · rintro h n ⟨b, hb, hn⟩
      exact h b.trees ⟨b, hb, rfl⟩ n hn

/-- **Printed methods are read back.**  A well-typed method whose names hold no double quote and
whose trees are not too high is read back from its text, as long as every floating point constant
has a text that gives it back; with another one the text is refused at some place. -/
theorem parse_render (htyped : m.WellTyped) (hnames : m.NamesUnquoted)
    (hheight : ∀ n ∈ m.trees, n.height ≤ 510) :
    ((∀ n ∈ m.trees, n.IsReadable) → parse m.render = .ok m) ∧
      ((¬∀ n ∈ m.trees, n.IsReadable) →
        ∃ position defect, parse m.render = .error (.malformed position defect)) := by
  obtain ⟨e, he, hspells⟩ := ofText_render hnames hheight
  have hread := ofExpr_of_spells htyped hspells
  rw [parse, he, Except.ok_bind]
  exact ⟨hread.ok, hread.malformed⟩

/-- A loop on a parameter, and the constant with the given bits. -/
def waiting (bits : UInt64) : Method :=
  ⟨some "wait", .double, [.int32], [⟨some "top",
    [.node (.ifcmp .lt) .int32 (.target 0)
        [.node .load .int32 (.parm 0) [], .node .const .int32 (.int (-3)) []],
      .node .ret .double .none [.node .const .double (.float bits) []]]⟩]⟩

lemma waiting_wellTyped (bits : UInt64) : (waiting bits).WellTyped := by
  have hparm : (Node.node .load .int32 (.parm 0) []).WellTyped (waiting bits).scope :=
    .node ⟨rfl, rfl⟩ ⟨0, rfl, rfl⟩ (by simp) (by simp) (by simp)
  have hcount : (Node.node .const .int32 (.int (-3)) []).WellTyped (waiting bits).scope :=
    .node ⟨rfl, rfl⟩ (.inr ⟨rfl, -3, rfl, by decide⟩) (by simp) (by simp) (by simp)
  have hconst : (Node.node .const .double (.float bits) []).WellTyped (waiting bits).scope :=
    .node ⟨rfl, rfl⟩ (.inl ⟨rfl, bits, rfl⟩) (by simp) (by simp) (by simp)
  have hbranch : (Node.node (.ifcmp .lt) .int32 (.target 0)
      [.node .load .int32 (.parm 0) [], .node .const .int32 (.int (-3)) []]).WellTyped
        (waiting bits).scope := by
    refine .node ⟨rfl, rfl⟩ ⟨0, "top", rfl, rfl⟩ (by simp) ?_ ?_
    · exact List.forall_mem_cons.mpr ⟨rfl, List.forall_mem_singleton.mpr rfl⟩
    · exact List.forall_mem_cons.mpr ⟨hparm, List.forall_mem_singleton.mpr hcount⟩
  have hret : (Node.node .ret .double .none
      [.node .const .double (.float bits) []]).WellTyped (waiting bits).scope :=
    .node (.inr ⟨rfl, rfl⟩) rfl (fun _ => rfl) (List.forall_mem_singleton.mpr rfl)
      (List.forall_mem_singleton.mpr hconst)
  refine ⟨by simp [waiting], by simp [waiting], by simp [waiting], ?_⟩
  refine List.forall_mem_singleton.mpr (List.forall_mem_cons.mpr ⟨hbranch, ?_⟩)
  exact List.forall_mem_singleton.mpr hret

/-- A constant of one half is read back, and positive infinity is refused. -/
theorem parse_render_waiting :
    parse (waiting 0x3fe0000000000000).render = .ok (waiting 0x3fe0000000000000) ∧
      ∃ position defect,
        parse (waiting 0x7ff0000000000000).render = .error (.malformed position defect) := by
  have hnames (bits : UInt64) : (waiting bits).NamesUnquoted := by
    refine ⟨?_, List.forall_mem_singleton.mpr ?_⟩
    · intro name hname
      obtain rfl := Option.some.inj hname
      decide
    · intro name hname
      obtain rfl := Option.some.inj hname
      decide
  have hheight (bits : UInt64) : ∀ n ∈ (waiting bits).trees, n.height ≤ 510 := by
    refine List.forall_mem_cons.mpr ⟨?_, List.forall_mem_singleton.mpr ?_⟩
    · decide
    · exact Nat.le_of_ble_eq_true rfl
  have hloads : ∀ c ∈ [Node.node .load .int32 (.parm 0) [], .node .const .int32 (.int (-3)) []],
      c.IsReadable := by
    refine List.forall_mem_cons.mpr ⟨?_, List.forall_mem_singleton.mpr ?_⟩ <;>
      exact .node trivial (by simp)
  constructor
  · refine (parse_render (waiting_wellTyped _) (hnames _) (hheight _)).1 ?_
    refine List.forall_mem_cons.mpr ⟨.node trivial hloads, List.forall_mem_singleton.mpr ?_⟩
    refine .node trivial (List.forall_mem_singleton.mpr (.node ⟨?_, ?_⟩ (by simp))) <;> decide
  · refine (parse_render (waiting_wellTyped _) (hnames _) (hheight _)).2 fun hall => ?_
    have hret := hall _ (List.mem_cons_of_mem _ List.mem_cons_self)
    cases hret with
    | node _ operands =>
      cases operands _ List.mem_cons_self with
      | node himm _ => exact himm.2 (by decide)

end Method

end TreeCode
