import Mathlib
import TreeCode.Proofs.Rules

/-!
# Expressions that are alike

A method is read off the structure of an expression.  Two expressions are alike (`Expr.Alike`) if
they have the same heads and the same children in the same order, and under each key the same
values.  Their places do not count, nor does the order of fields with different keys, nor whether a
name is written as a word or between quotes; between which children a field stands is not part of an
expression anyway.  Of two texts with alike expressions either both are the same method or neither
is one (`Method.parse_alike`).
-/

namespace TreeCode

open Source (Form Field Value Expr)

namespace Source

/-! ## Likeness -/

mutual

/-- The value with all its names between quotes. -/
def Value.quoted : Value → Value
  | .ident name => .text name
  | .list items => .list (Value.allQuoted items)
  | v => v

/-- Values with all their names between quotes. -/
def Value.allQuoted : List Value → List Value
  | [] => []
  | v :: vs => Value.quoted v :: Value.allQuoted vs

end

/-- The values under a key, or of those fields that have none, in their order, with all names
between quotes. -/
def Form.under (f : Form) (key : Option String) : List Value :=
  (f.fields.filter fun field => field.key == key).map fun field => field.value.quoted

/-- Two forms that differ in places, in the order of fields with different keys and in how names are
written. -/
structure Form.Alike (f g : Form) : Prop where
  head : f.head = g.head
  under : ∀ key, f.under key = g.under key

/-- Two expressions whose forms are alike throughout. -/
inductive Expr.Alike : Expr → Expr → Prop
  | expr {f g : Form} {es es' : List Expr} (form : f.Alike g)
      (children : List.Forall₂ Alike es es') : Alike (.expr f es) (.expr g es')

variable {f g : Form} {key : String} {v w : Value}

/-! ## Reordering -/

/-- A list of which there is no more than one member has only one order. -/
lemma eq_of_perm_of_length_le {α : Type} {l l' : List α} (h : l.Perm l') (hlength : l.length ≤ 1) :
    l = l' := by
  match l, hlength with
  | [], _ => exact h.nil_eq
  | [a], _ => exact (List.perm_singleton.mp h.symm).symm

/-- Fields with different keys may be put into any order. -/
lemma Form.alike_of_perm (hhead : f.head = g.head)
    (hperm : (f.fields.map fun field => (field.key, field.value.quoted)).Perm
      (g.fields.map fun field => (field.key, field.value.quoted)))
    (hkeys : (f.fields.filterMap Field.key).Nodup) (hbare : f.under none = g.under none) :
    f.Alike g := by
  refine ⟨hhead, fun key => ?_⟩
  cases key with
  | none => exact hbare
  | some key =>
    -- the values under a key are a sublist of what is reordered, and there is at most one
    have hunder (h : Form) : h.under (some key) =
        ((h.fields.map fun field => (field.key, field.value.quoted)).filter
          fun p => p.1 == some key).map Prod.snd := by
      rw [List.filter_map, List.map_map]
      rfl
    refine eq_of_perm_of_length_le ?_ ?_
    · rw [hunder, hunder]
      exact (hperm.filter _).map _
    · have hcount : (f.fields.filterMap Field.key).count key = (f.under (some key)).length := by
        rw [under, List.length_map, ← List.countP_eq_length_filter, List.count,
          List.countP_filterMap]
        refine List.countP_congr fun field _ => ?_
        cases field.key <;> simp
      rw [← hcount]
      exact List.nodup_iff_count_le_one.mp hkeys key

/-! ## What the rules look at -/

lemma Value.name?_quoted (v : Value) : v.quoted.name? = v.name? := by
  cases v <;> rfl

lemma Value.name?_of_quoted (h : v.quoted = w.quoted) : v.name? = w.name? := by
  rw [← name?_quoted v, ← name?_quoted w, h]

lemma Value.eq_int_of_quoted {n : Int64} (h : v.quoted = w.quoted) (hv : v = .int n) :
    w = .int n := by
  subst hv
  cases w <;> simp_all [quoted]

lemma Value.eq_float_of_quoted {bits : UInt64} (h : v.quoted = w.quoted) (hv : v = .float bits) :
    w = .float bits := by
  subst hv
  cases w <;> simp_all [quoted]

lemma Value.eq_list_of_quoted {vs : List Value} (h : v.quoted = w.quoted) (hv : v = .list vs) :
    ∃ ws, w = .list ws ∧ Value.allQuoted vs = Value.allQuoted ws := by
  subst hv
  cases w <;> simp_all [quoted]

namespace Form

/-- The values under a key are those of the fields with this key. -/
lemma under_ne_nil_iff {key : Option String} :
    f.under key ≠ [] ↔ ∃ field ∈ f.fields, field.key = key := by
  simp [under, List.filter_eq_nil_iff]

/-- The first field with a key has the first value under it. -/
lemma map_field?_eq (f : Form) (key : String) :
    (f.field? key).map (fun field => field.value.quoted) = (f.under (some key)).head? := by
  rw [under, List.head?_map, List.head?_filter, field?]

lemma map_positional_eq (f : Form) :
    f.positional.map (fun field => field.value.quoted) = f.under none := by
  rw [under, positional]
  congr 1
  refine List.filter_congr fun field _ => ?_
  cases field.key <;> rfl

namespace Alike

lemma symm (h : f.Alike g) : g.Alike f := ⟨h.head.symm, fun key => (h.under key).symm⟩

lemma field?_eq_none (h : f.Alike g) (hf : f.field? key = none) : g.field? key = none := by
  rw [← Option.map_eq_none_iff (f := fun field : Field => field.value.quoted), map_field?_eq,
    ← h.under, ← map_field?_eq, hf, Option.map_none]

lemma exists_field? {a : Field} (h : f.Alike g) (ha : f.field? key = some a) :
    ∃ b, g.field? key = some b ∧ a.value.quoted = b.value.quoted := by
  have hmap := (map_field?_eq g key).trans ((congrArg List.head? (h.under (some key)).symm).trans
    (map_field?_eq f key).symm)
  rw [ha, Option.map_some, Option.map_eq_some_iff] at hmap
  obtain ⟨b, hb, hvalue⟩ := hmap
  exact ⟨b, hb, hvalue.symm⟩

lemma exists_positional {a : Field} (h : f.Alike g) (ha : f.positional = [a]) :
    ∃ b, g.positional = [b] ∧ a.value.quoted = b.value.quoted := by
  have hmap := (map_positional_eq g).trans ((h.under none).symm.trans (map_positional_eq f).symm)
  rw [ha, List.map_singleton, List.map_eq_singleton_iff] at hmap
  obtain ⟨b, hb, hvalue⟩ := hmap
  exact ⟨b, hb, hvalue.symm⟩

/-- Alike forms have the same keys. -/
lemma exists_key {b : Field} (h : f.Alike g) (hb : b ∈ g.fields) :
    ∃ a ∈ f.fields, a.key = b.key := by
  rw [← under_ne_nil_iff, h.under, under_ne_nil_iff]
  exact ⟨b, hb, rfl⟩

lemma checkFields {allowed : List String} (h : f.Alike g) (hf : f.checkFields allowed = .ok ()) :
    g.checkFields allowed = .ok () := by
  rw [checkFields_eq_ok_iff] at hf ⊢
  intro b hb
  obtain ⟨a, ha, hkey⟩ := h.exists_key hb
  rw [← hkey]
  exact hf a ha

lemma name? {name : Option String} (h : f.Alike g) (hf : f.name? key = .ok name) :
    g.name? key = .ok name := by
  unfold Form.name? at hf ⊢
  cases ha : f.field? key with
  | none => simpa [ha, h.field?_eq_none ha] using hf
  | some a =>
    obtain ⟨b, hb, hvalue⟩ := h.exists_field? ha
    simp only [ha] at hf
    simp only [hb, ← Value.name?_of_quoted hvalue]
    split at hf <;> simp_all

/-- The integer in a field, at another place. -/
lemma exists_int? {v : Int64} {position : Nat} (h : f.Alike g)
    (hf : f.int? key = .ok (some (v, position))) :
    ∃ position', g.int? key = .ok (some (v, position')) := by
  unfold Form.int? at hf ⊢
  cases ha : f.field? key with
  | none => simp [ha] at hf
  | some a =>
    obtain ⟨b, hb, hvalue⟩ := h.exists_field? ha
    simp only [ha] at hf
    split at hf
    · rename_i v' ha'
      simp only [Except.ok.injEq, Option.some.injEq, Prod.mk.injEq] at hf
      exact ⟨b.position, by simp [hb, Value.eq_int_of_quoted hvalue ha', hf.1]⟩
    · cases hf

lemma int?_eq_none (h : f.Alike g) (hf : f.int? key = .ok none) : g.int? key = .ok none := by
  unfold Form.int? at hf ⊢
  cases ha : f.field? key with
  | none => rw [h.field?_eq_none ha]
  | some a =>
    simp only [ha] at hf
    split at hf <;> cases hf

lemma exists_int {v : Int64} {position : Nat} (h : f.Alike g)
    (hf : f.int key = .ok (v, position)) : ∃ position', g.int key = .ok (v, position') := by
  obtain ⟨found, hfound, hf⟩ := Except.bind_eq_ok_iff.mp hf
  cases found with
  | none => simp at hf
  | some found =>
    obtain rfl := Except.ok.inj hf
    obtain ⟨position', hg⟩ := h.exists_int? hfound
    exact ⟨position', by simp [Form.int, hg]⟩

end Alike

end Form

/-! ## Types -/

lemma ofValue_eq_ok_iff {position : Nat} {type : DataType} :
    DataType.ofValue position v = .ok type ↔
      ∃ name, v.name? = some name ∧ DataType.ofName? name = some type := by
  unfold DataType.ofValue
  cases v.name? with
  | none => simp
  | some name => cases hname : DataType.ofName? name <;> simp [hname]

lemma ofValue_of_quoted {position : Nat} {type : DataType} (position' : Nat)
    (h : v.quoted = w.quoted) (hv : DataType.ofValue position v = .ok type) :
    DataType.ofValue position' w = .ok type := by
  rw [ofValue_eq_ok_iff] at hv ⊢
  rwa [← Value.name?_of_quoted h]

lemma mapM_ofValue_of_quoted {position : Nat} {types : List DataType} (position' : Nat)
    {vs ws : List Value} (h : Value.allQuoted vs = Value.allQuoted ws)
    (hv : vs.mapM (DataType.ofValue position) = .ok types) :
    ws.mapM (DataType.ofValue position') = .ok types := by
  rw [Except.mapM_eq_ok_iff] at hv ⊢
  induction hv generalizing ws with
  | nil =>
    cases ws with
    | nil => exact .nil
    | cons => simp [Value.allQuoted] at h
  | cons hv _ ih =>
    cases ws with
    | nil => simp [Value.allQuoted] at h
    | cons w ws =>
      rw [Value.allQuoted, Value.allQuoted, List.cons.injEq] at h
      exact .cons (ofValue_of_quoted position' h.1 hv) (ih h.2)

lemma Form.Alike.type? {type : Option DataType} (h : f.Alike g) (hf : f.type? key = .ok type) :
    g.type? key = .ok type := by
  unfold Form.type? at hf ⊢
  cases ha : f.field? key with
  | none => simpa [ha, h.field?_eq_none ha] using hf
  | some a =>
    obtain ⟨b, hb, hvalue⟩ := h.exists_field? ha
    simp only [ha] at hf
    obtain ⟨t, ht, rfl⟩ := Except.map_eq_ok_iff.mp hf
    simp only [hb]
    exact Except.map_eq_ok_iff.mpr ⟨t, ofValue_of_quoted b.position hvalue ht, rfl⟩

/-- The argument types of a method, or of a call. -/
lemma Form.Alike.paramTypes {types : List DataType} (h : f.Alike g)
    (hf : TreeCode.paramTypes f = .ok types) : TreeCode.paramTypes g = .ok types := by
  unfold TreeCode.paramTypes at hf ⊢
  cases ha : f.field? "args" with
  | none => simpa [ha, h.field?_eq_none ha] using hf
  | some a =>
    obtain ⟨b, hb, hvalue⟩ := h.exists_field? ha
    simp only [ha] at hf
    split at hf
    · rename_i items hitems
      obtain ⟨ws, hws, hquoted⟩ := Value.eq_list_of_quoted hvalue hitems
      simp only [hb, hws]
      exact mapM_ofValue_of_quoted b.position hquoted hf
    · cases hf

lemma Form.Alike.argumentsWrittenBy {operands : List Node} (h : f.Alike g)
    (hf : Node.ArgumentsWrittenBy f operands) : Node.ArgumentsWrittenBy g operands := by
  intro b hb
  obtain ⟨a, ha, hvalue⟩ := h.symm.exists_field? hb
  obtain ⟨vs, hvs, htypes⟩ := hf a ha
  obtain ⟨ws, hws, hquoted⟩ := Value.eq_list_of_quoted hvalue.symm hvs
  exact ⟨ws, hws, mapM_ofValue_of_quoted b.position hquoted htypes⟩

end Source

/-! ## Rules -/

namespace Scope

variable {s : Scope} {f g : Form} {op : Opcode} {declared : Declared} {type : DataType}
  {operands : List Node} {n : Node}

lemma target_of_alike {index : Nat} (h : f.Alike g) (hf : s.target f = .ok index) :
    s.target g = .ok index := by
  rw [target_eq_ok_iff] at hf ⊢
  obtain ⟨name, hname, hindex⟩ := hf
  exact ⟨name, h.name? hname, hindex⟩

lemma accessType_of_alike (h : f.Alike g) (hf : accessType f declared = .ok type) :
    accessType g declared = .ok type := by
  rw [accessType_eq_ok_iff] at hf ⊢
  cases declared with
  | known t => exact ⟨h.checkFields hf.1, hf.2⟩
  | someVector => exact ⟨h.checkFields hf.1, h.type? hf.2.1, hf.2.2⟩

lemma accessOffset_of_alike {o : Int32} (h : f.Alike g) (hf : accessOffset f = .ok o) :
    accessOffset g = .ok o := by
  rw [accessOffset_eq_ok_iff] at hf ⊢
  rcases hf with ⟨hint, ho⟩ | ⟨v, position, hint, hv⟩
  · exact .inl ⟨h.int?_eq_none hint, ho⟩
  · obtain ⟨position', hint'⟩ := h.exists_int? hint
    exact .inr ⟨v, position', hint', hv⟩

lemma Literal.of_quoted {v w : Value} {imm : Immediate} (h : v.quoted = w.quoted)
    (hv : Literal type v imm) : Literal type w imm := by
  cases hv with
  | int hfloating fits => exact Value.eq_int_of_quoted h rfl ▸ .int hfloating fits
  | ofInt hfloating => exact Value.eq_int_of_quoted h rfl ▸ .ofInt hfloating
  | float hfloating => exact Value.eq_float_of_quoted h rfl ▸ .float hfloating

lemma constRule_of_alike (h : f.Alike g) (hf : constRule f type operands = .ok n) :
    constRule g type operands = .ok n := by
  rw [constRule_eq_ok_iff] at hf ⊢
  obtain ⟨hkeys, hnil, a, ha, imm, himm, hn⟩ := hf
  obtain ⟨b, hb, hvalue⟩ := h.exists_positional ha
  refine ⟨fun field hfield => ?_, hnil, b, hb, imm, himm.of_quoted hvalue, hn⟩
  obtain ⟨field', hfield', hkey⟩ := h.exists_key hfield
  rw [← hkey, hkeys field' hfield']

/-- Each rule makes the same of alike forms. -/
lemma rule_of_alike (h : f.Alike g) (hf : s.rule f op declared operands = .ok n) :
    s.rule g op declared operands = .ok n := by
  unfold rule at hf ⊢
  cases op with
  | load =>
    rw [loadRule_eq_ok_iff] at hf ⊢
    obtain ⟨hfields, hnil, v, position, hint, hparam, hn⟩ := hf
    obtain ⟨position', hint'⟩ := h.exists_int hint
    exact ⟨h.checkFields hfields, hnil, v, position', hint', hparam, hn⟩
  | const => exact constRule_of_alike h hf
  | loadIndirect =>
    rw [loadIndirectRule_eq_ok_iff] at hf ⊢
    obtain ⟨type, htype, htypes, o, ho, hn⟩ := hf
    exact ⟨type, accessType_of_alike h htype, htypes, o, accessOffset_of_alike h ho, hn⟩
  | storeIndirect =>
    rw [storeIndirectRule_eq_ok_iff] at hf ⊢
    obtain ⟨type, htype, htypes, o, ho, hn⟩ := hf
    exact ⟨type, accessType_of_alike h htype, htypes, o, accessOffset_of_alike h ho, hn⟩
  | add | sub | mul | div =>
    cases declared with
    | known type =>
      simp only [binaryRule_eq_ok_iff] at hf ⊢
      exact ⟨h.checkFields hf.1, hf.2⟩
    | someVector =>
      simp only [vectorRule_eq_ok_iff] at hf ⊢
      obtain ⟨hfields, lane, htype, hrest⟩ := hf
      exact ⟨h.checkFields hfields, lane, htype.imp h.type? h.type?, hrest⟩
  | and | or | xor =>
    simp only [binaryRule_eq_ok_iff] at hf ⊢
    exact ⟨h.checkFields hf.1, hf.2⟩
  | shl | shr | ushr | rol =>
    simp only [shiftRule_eq_ok_iff] at hf ⊢
    exact ⟨h.checkFields hf.1, hf.2⟩
  | neg | sqrt =>
    simp only [unaryRule_eq_ok_iff] at hf ⊢
    exact ⟨h.checkFields hf.1, hf.2⟩
  | ret =>
    simp only [returnRule_eq_ok_iff] at hf ⊢
    exact ⟨h.checkFields hf.1, hf.2⟩
  | goto =>
    simp only [gotoRule_eq_ok_iff] at hf ⊢
    obtain ⟨hfields, hnil, index, hindex, hn⟩ := hf
    exact ⟨h.checkFields hfields, hnil, index, target_of_alike h hindex, hn⟩
  | ifcmp c =>
    simp only [compareRule_eq_ok_iff] at hf ⊢
    obtain ⟨hfields, htypes, index, hindex, hn⟩ := hf
    exact ⟨h.checkFields hfields, htypes, index, target_of_alike h hindex, hn⟩
  | call =>
    simp only [callRule_eq_ok_iff] at hf ⊢
    obtain ⟨hfields, address, position, hint, hnonneg, harguments, hrest⟩ := hf
    obtain ⟨position', hint'⟩ := h.exists_int hint
    exact ⟨h.checkFields hfields, address, position', hint', hnonneg,
      h.argumentsWrittenBy harguments, hrest⟩

mutual

/-- Alike expressions are the same tree. -/
lemma tree_of_alike : ∀ {e e' : Expr} {n : Node}, e.Alike e' → s.tree e = .ok n →
    s.tree e' = .ok n
  | .expr f es, .expr g es', n, .expr form children, h => by
    obtain ⟨op, declared, ns, hdecode, hns, hrule⟩ := tree_eq_ok_iff.mp h
    refine tree_eq_ok_iff.mpr ⟨op, declared, ns, ?_, operands_of_alike children hns,
      rule_of_alike form hrule⟩
    rw [← form.head, hdecode]

/-- Alike expressions are the same operands. -/
lemma operands_of_alike : ∀ {es es' : List Expr} {ns : List Node},
    List.Forall₂ Expr.Alike es es' → s.operands es = .ok ns → s.operands es' = .ok ns
  | [], [], _, .nil, h => h
  | e :: es, e' :: es', ns, .cons hhead htail, h => by
    obtain ⟨n, ns', hn, hvalue, hns, rfl⟩ := operands_cons_eq_ok_iff.mp h
    exact operands_cons_eq_ok_iff.mpr
      ⟨n, ns', tree_of_alike hhead hn, hvalue, operands_of_alike htail hns, rfl⟩

end

end Scope

/-! ## Methods -/

namespace Source.Expr

mutual

lemma Alike.symm : ∀ {e e' : Expr}, e.Alike e' → e'.Alike e
  | .expr _ _, .expr _ _, .expr form children => .expr form.symm (allAlike_symm children)

lemma allAlike_symm : ∀ {es es' : List Expr}, List.Forall₂ Alike es es' → List.Forall₂ Alike es' es
  | [], [], .nil => .nil
  | _ :: _, _ :: _, .cons hhead htail => .cons hhead.symm (allAlike_symm htail)

end

/-- What holds of expressions and what they stand for holds of alike ones as well. -/
lemma forall₂_of_alike {β : Type} {R : Expr → β → Prop} {es es' : List Expr} {bs : List β}
    (h : List.Forall₂ Alike es es') (hR : ∀ e e' b, e.Alike e' → R e b → R e' b)
    (hes : List.Forall₂ R es bs) : List.Forall₂ R es' bs := by
  induction h generalizing bs with
  | nil => exact hes
  | cons hhead _ ih =>
    cases hes with
    | cons hb hbs => exact .cons (hR _ _ _ hhead hb) (ih hbs)

end Source.Expr

lemma Source.Form.IsBlock.of_alike {f g : Form} {name : Option String} (h : f.Alike g)
    (hf : f.IsBlock name) : g.IsBlock name where
  head := h.head ▸ hf.head
  fields := h.checkFields hf.fields
  name := h.name? hf.name

lemma Source.Form.IsMethod.of_alike {f g : Form} {m : Method} (h : f.Alike g)
    (hf : f.IsMethod m) : g.IsMethod m where
  head := h.head ▸ hf.head
  fields := h.checkFields hf.fields
  name := h.name? hf.name
  returnType := h.type? hf.returnType
  params := h.paramTypes hf.params

lemma Scope.trees_of_alike {s : Scope} {es es' : List Expr} {ns : List Node}
    (h : List.Forall₂ Expr.Alike es es') (hes : s.trees es = .ok ns) : s.trees es' = .ok ns := by
  rw [Scope.trees, Except.mapM_eq_ok_iff] at hes ⊢
  exact Source.Expr.forall₂_of_alike h (fun _ _ _ => tree_of_alike) hes

namespace Method

/-- Alike expressions are the same method. -/
lemma ofExpr_of_alike {e e' : Expr} {m : Method} (h : e.Alike e') (he : ofExpr e = .ok m) :
    ofExpr e' = .ok m := by
  rw [ofExpr_eq_ok_iff] at he ⊢
  cases h with
  | expr form children =>
    obtain ⟨hmethod, hparams, hblocks, hnames, hbodies⟩ := he
    refine ⟨hmethod.of_alike form, hparams, ?_, hnames,
      Source.Expr.forall₂_of_alike children (fun e e' b hblock => ?_) hbodies⟩
    · rintro rfl
      cases children
      exact hblocks rfl
    · rintro ⟨hname, htrees⟩
      cases hblock with
      | expr form children => exact ⟨hname.of_alike form, Scope.trees_of_alike children htrees⟩

/-- **Parsing depends on structure.**  Of two texts whose expressions are alike either both are
parsed as the same method, with the same constants bit by bit, or both are refused. -/
theorem parse_alike {text text' : String} {e e' : Expr} (he : Expr.ofText text = .ok e)
    (he' : Expr.ofText text' = .ok e') (h : e.Alike e') :
    (∃ m, parse text = .ok m ∧ parse text' = .ok m) ∨
      ∃ error error', parse text = .error error ∧ parse text' = .error error' := by
  simp only [parse, he, he', Except.ok_bind]
  cases hm : ofExpr e with
  | ok m => exact .inl ⟨m, rfl, ofExpr_of_alike h hm⟩
  | error error =>
    cases hm' : ofExpr e' with
    | ok m =>
      -- likeness goes both ways, so the first text would be this method too
      rw [ofExpr_of_alike h.symm hm'] at hm
      cases hm
    | error error' => exact .inr ⟨error, error', rfl, rfl⟩

/-- A method that calls. -/
def orderlyText : String :=
  "(method name=m return=Int32 args=[Int32]
    (block (ireturn (icall address=0x10 args=[Int32] (iload parm=0)))))"

/-- The same with the fields in another order and behind children, and with quotes. -/
def disorderlyText : String :=
  "(method args=[\"Int32\"] (block (ireturn (icall (iload parm=0) args=[\"Int32\"] address=16)))
    return=\"Int32\" name=\"m\")"

/-- What `orderlyText` is read as. -/
def orderly : Expr :=
  .expr ⟨"method", 0, [⟨some "name", .ident "m", 8⟩, ⟨some "return", .ident "Int32", 15⟩,
      ⟨some "args", .list [.ident "Int32"], 28⟩]⟩
    [.expr ⟨"block", 45, []⟩ [.expr ⟨"ireturn", 52, []⟩
      [.expr ⟨"icall", 61, [⟨some "address", .int 16, 68⟩,
          ⟨some "args", .list [.ident "Int32"], 81⟩]⟩
        [.expr ⟨"iload", 94, [⟨some "parm", .int 0, 101⟩]⟩ []]]]]

/-- What `disorderlyText` is read as. -/
def disorderly : Expr :=
  .expr ⟨"method", 0, [⟨some "args", .list [.text "Int32"], 8⟩, ⟨some "return", .text "Int32", 94⟩,
      ⟨some "name", .text "m", 109⟩]⟩
    [.expr ⟨"block", 23, []⟩ [.expr ⟨"ireturn", 30, []⟩
      [.expr ⟨"icall", 39, [⟨some "args", .list [.text "Int32"], 61⟩,
          ⟨some "address", .int 16, 76⟩]⟩
        [.expr ⟨"iload", 46, [⟨some "parm", .int 0, 53⟩]⟩ []]]]]

/-- Reversing the fields and writing names between quotes keeps expressions alike. -/
theorem alike_disorderly : orderly.Alike disorderly := by
  refine .expr ?method (.cons (.expr ?block (.cons (.expr ?ret (.cons
    (.expr ?call (.cons (.expr ?load .nil) .nil)) .nil)) .nil)) .nil)
  case method => exact Form.alike_of_perm rfl (List.reverse_perm _).symm (by decide) rfl
  case call => exact Form.alike_of_perm rfl (List.reverse_perm _).symm (by decide) rfl
  case block | ret | load => exact Form.alike_of_perm rfl .rfl (by decide) rfl

set_option maxRecDepth 2000 in
/-- The two texts are parsed as the same method. -/
theorem parse_disorderlyText :
    Expr.ofText orderlyText = .ok orderly ∧ Expr.ofText disorderlyText = .ok disorderly ∧
      orderly.Alike disorderly ∧
      ∃ m, parse orderlyText = .ok m ∧ parse disorderlyText = .ok m := by
  have hread : Expr.ofText orderlyText = .ok orderly := by cbv
  have hread' : Expr.ofText disorderlyText = .ok disorderly := by cbv
  refine ⟨hread, hread', alike_disorderly, ?_⟩
  have hparse : (parse orderlyText).isOk := by
    rw [parse, hread, Except.ok_bind]
    rfl
  rcases parse_alike hread hread' alike_disorderly with h | ⟨error, error', herror, -⟩
  · exact h
  · rw [herror] at hparse
    cases hparse

end Method

end TreeCode
