import Mathlib.Data.List.Nodup
import TreeCode.Proofs.Outcome
import TreeCode.Proofs.WellTyped

/-!
# What the typing rules accept

For each rule, exactly when it accepts an expression and its operands, and which node results.
-/

namespace TreeCode

open Source (Form Field Value Expr)

namespace Source.Form

variable {f : Form}

@[simp] lemma fail_ne_ok {α : Type} (defect : Defect) (a : α) :
    f.fail defect ≠ .ok a := by
  simp [fail]

@[simp] lemma mismatch_ne_ok {α : Type} (expected found : Operand) (a : α) :
    f.mismatch expected found ≠ .ok a := by
  simp [mismatch]

@[simp] lemma fail_bind {α β : Type} (defect : Defect) (k : α → Except ParseError β) :
    (f.fail defect >>= k) = f.fail defect := rfl

/-- A check that fails if a condition holds. -/
lemma ite_fail_eq_ok_iff {α : Type} {c : Prop} [Decidable c] {defect : Defect}
    {x : Except ParseError α} {a : α} :
    (if c then f.fail defect else x) = .ok a ↔ ¬c ∧ x = .ok a := by
  split <;> simp_all

@[simp] lemma mismatch_bind {α β : Type} (expected found : Operand)
    (k : α → Except ParseError β) : (f.mismatch expected found >>= k) = f.mismatch expected found :=
  rfl

/-- Only fields with the allowed keys are accepted. -/
lemma checkFields_eq_ok_iff {allowed : List String} :
    f.checkFields allowed = .ok () ↔ ∀ field ∈ f.fields, ∃ key ∈ allowed, field.key = some key := by
  rw [checkFields, Except.forM_eq_ok_iff]
  refine forall₂_congr fun field _ => ?_
  cases field.key with
  | none => simp
  | some key => simp

@[simp] lemma expect_eq_ok_iff {operand : Node} {type : DataType} {u : Unit} :
    f.expect operand type = .ok u ↔ operand.type = type := by
  unfold expect
  split <;> simp_all

@[simp] lemma noOperand_eq_ok_iff {operands : List Node} {u : Unit} :
    f.noOperand operands = .ok u ↔ operands = [] := by
  unfold noOperand
  split <;> simp_all

@[simp] lemma oneOperand_eq_ok_iff {operands : List Node} {a : Node} :
    f.oneOperand operands = .ok a ↔ operands = [a] := by
  unfold oneOperand
  split <;> simp_all

@[simp] lemma twoOperands_eq_ok_iff {operands : List Node} {a b : Node} :
    f.twoOperands operands = .ok (a, b) ↔ operands = [a, b] := by
  unfold twoOperands
  split <;> simp_all

end Source.Form

/-- Two trees of the given types. -/
lemma map_type_eq_pair_iff {operands : List Node} {t u : DataType} :
    operands.map Node.type = [t, u] ↔ ∃ a b, operands = [a, b] ∧ a.type = t ∧ b.type = u := by
  simp only [List.map_eq_cons_iff, List.map_eq_nil_iff]
  constructor
  · rintro ⟨a, _, rfl, ha, b, _, rfl, hb, rfl⟩
    exact ⟨a, b, rfl, ha, hb⟩
  · rintro ⟨a, b, rfl, ha, hb⟩
    exact ⟨a, _, rfl, ha, b, _, rfl, hb, rfl⟩

/-- One tree of the given type. -/
lemma map_type_eq_singleton_iff {operands : List Node} {t : DataType} :
    operands.map Node.type = [t] ↔ ∃ a, operands = [a] ∧ a.type = t := by
  simp only [List.map_eq_cons_iff, List.map_eq_nil_iff]
  constructor
  · rintro ⟨a, _, rfl, ha, rfl⟩
    exact ⟨a, rfl, ha⟩
  · rintro ⟨a, rfl, ha⟩
    exact ⟨a, _, rfl, ha, rfl⟩

namespace Scope

variable {s : Scope} {f : Form} {op : Opcode} {type : DataType} {operands : List Node} {n : Node}

lemma loadRule_eq_ok_iff :
    s.loadRule f type operands = .ok n ↔
      f.checkFields ["parm"] = .ok () ∧ operands = [] ∧
        ∃ v position, f.int "parm" = .ok (v, position) ∧ s.param? v = some type ∧
          n = .node .load type (.parm (UInt32.ofInt v.toInt)) operands := by
  simp only [loadRule, Except.bind_eq_ok_iff, Source.Form.noOperand_eq_ok_iff, Prod.exists]
  constructor
  · rintro ⟨_, hfields, _, hnil, v, position, hint, hrule⟩
    refine ⟨hfields, hnil, v, position, hint, ?_⟩
    split at hrule
    · simp at hrule
    · split at hrule <;> simp_all
  · rintro ⟨hfields, hnil, v, position, hint, hparam, rfl⟩
    exact ⟨(), hfields, (), hnil, v, position, hint, by simp [hparam]⟩

/-- What a constant of a type is, given the value that is written. -/
inductive Literal (type : DataType) : Value → Immediate → Prop
  | int {v : Int64} (h : type.isFloating = false) (fits : type.admits v) :
      Literal type (.int v) (.int v)
  | ofInt {v : Int64} (h : type.isFloating) :
      Literal type (.int v) (.float (Number.ofInt v.toInt))
  | float {bits : UInt64} (h : type.isFloating) : Literal type (.float bits) (.float bits)

lemma constRule_eq_ok_iff :
    constRule f type operands = .ok n ↔
      (∀ field ∈ f.fields, field.key = none) ∧ operands = [] ∧
        ∃ field, f.positional = [field] ∧
          ∃ imm, Literal type field.value imm ∧ n = .node .const type imm operands := by
  have hkeys : f.fields.find? (fun field => field.key.isSome) = none ↔
      ∀ field ∈ f.fields, field.key = none := by
    simp [List.find?_eq_none]
  rw [← hkeys]
  unfold constRule
  cases hfind : f.fields.find? fun field => field.key.isSome with
  | some keyed => simp
  | none =>
    simp only [Except.bind_eq_ok_iff, Source.Form.noOperand_eq_ok_iff, true_and]
    constructor
    · rintro ⟨_, hnil, hrule⟩
      refine ⟨hnil, ?_⟩
      split at hrule
      · simp at hrule
      · simp at hrule
      · rename_i field hpos
        refine ⟨field, hpos, ?_⟩
        split at hrule
        · rename_i v hval hfloat
          split at hrule
          · rename_i hadmits
            simp only [Except.ok.injEq] at hrule
            exact ⟨_, hval ▸ .int hfloat hadmits, hrule.symm⟩
          · simp at hrule
        · rename_i v hval hfloat
          simp only [Except.ok.injEq] at hrule
          exact ⟨_, hval ▸ .ofInt hfloat, hrule.symm⟩
        · rename_i bits hval hfloat
          simp only [Except.ok.injEq] at hrule
          exact ⟨_, hval ▸ .float hfloat, hrule.symm⟩
        · simp at hrule
    · rintro ⟨hnil, field, hpos, imm, hlit, rfl⟩
      refine ⟨(), hnil, ?_⟩
      simp only [hpos]
      generalize hval : field.value = value at hlit
      cases hlit with
      | int h fits => simp [h, fits]
      | ofInt h => simp [h]
      | float h => simp [h]

lemma accessType_eq_ok_iff {declared : Declared} :
    accessType f declared = .ok type ↔
      match declared with
      | .known t => f.checkFields ["offset"] = .ok () ∧ type = t
      | .someVector =>
        f.checkFields ["offset", "type"] = .ok () ∧ f.type? "type" = .ok (some type) ∧
          type.isVector := by
  cases declared with
  | known t =>
    simp only [accessType, Except.bind_eq_ok_iff, Except.ok.injEq]
    constructor
    · rintro ⟨_, hfields, rfl⟩
      exact ⟨hfields, rfl⟩
    · rintro ⟨hfields, rfl⟩
      exact ⟨(), hfields, rfl⟩
  | someVector =>
    simp only [accessType, Except.bind_eq_ok_iff]
    constructor
    · rintro ⟨_, hfields, found, htype, hrule⟩
      refine ⟨hfields, ?_⟩
      split at hrule
      · simp at hrule
      · split at hrule <;> simp_all
    · rintro ⟨hfields, htype, hvector⟩
      exact ⟨(), hfields, _, htype, by simp [hvector]⟩

lemma accessOffset_eq_ok_iff {o : Int32} :
    accessOffset f = .ok o ↔
      f.int? "offset" = .ok none ∧ o = 0 ∨
        ∃ v position, f.int? "offset" = .ok (some (v, position)) ∧ v.toInt = o.toInt := by
  simp only [accessOffset, Except.bind_eq_ok_iff]
  constructor
  · rintro ⟨found, hint, hrule⟩
    split at hrule
    · simp only [Except.ok.injEq] at hrule
      exact .inl ⟨hint, hrule.symm⟩
    · rename_i v position
      split at hrule
      · rename_i hrange
        simp only [Except.ok.injEq] at hrule
        refine .inr ⟨v, position, hint, ?_⟩
        rw [← hrule, Int32.toInt_ofInt_of_le (by simpa using hrange.1) (by omega)]
      · simp at hrule
  · rintro (⟨hint, rfl⟩ | ⟨v, position, hint, hv⟩)
    · exact ⟨_, hint, rfl⟩
    · refine ⟨_, hint, ?_⟩
      have hlow := o.le_toInt
      have hhigh := o.toInt_lt
      simp only [hv]
      rw [if_pos (by omega), Int32.ofInt_toInt]

lemma loadIndirectRule_eq_ok_iff {declared : Declared} :
    loadIndirectRule f declared operands = .ok n ↔
      ∃ type, accessType f declared = .ok type ∧ operands.map Node.type = [.address] ∧
        ∃ o, accessOffset f = .ok o ∧ n = .node .loadIndirect type (.offset o) operands := by
  simp only [loadIndirectRule, Except.bind_eq_ok_iff, Source.Form.oneOperand_eq_ok_iff,
    Source.Form.expect_eq_ok_iff, map_type_eq_singleton_iff, Except.ok.injEq]
  constructor
  · rintro ⟨type, htype, a, hoperands, _, ha, o, ho, rfl⟩
    exact ⟨type, htype, ⟨a, hoperands, ha⟩, o, ho, rfl⟩
  · rintro ⟨type, htype, ⟨a, hoperands, ha⟩, o, ho, rfl⟩
    exact ⟨type, htype, a, hoperands, (), ha, o, ho, rfl⟩

lemma storeIndirectRule_eq_ok_iff {declared : Declared} :
    storeIndirectRule f declared operands = .ok n ↔
      ∃ type, accessType f declared = .ok type ∧ operands.map Node.type = [.address, type] ∧
        ∃ o, accessOffset f = .ok o ∧ n = .node .storeIndirect type (.offset o) operands := by
  simp only [storeIndirectRule, Except.bind_eq_ok_iff, Prod.exists,
    Source.Form.twoOperands_eq_ok_iff, Source.Form.expect_eq_ok_iff, map_type_eq_pair_iff,
    Except.ok.injEq]
  constructor
  · rintro ⟨type, htype, a, b, hoperands, _, ha, _, hb, o, ho, rfl⟩
    exact ⟨type, htype, ⟨a, b, hoperands, ha, hb⟩, o, ho, rfl⟩
  · rintro ⟨type, htype, ⟨a, b, hoperands, ha, hb⟩, o, ho, rfl⟩
    exact ⟨type, htype, a, b, hoperands, (), ha, (), hb, o, ho, rfl⟩

lemma binaryRule_eq_ok_iff :
    binaryRule f op type operands = .ok n ↔
      f.checkFields [] = .ok () ∧ operands.map Node.type = [type, type] ∧
        n = .node op type .none operands := by
  simp only [binaryRule, Except.bind_eq_ok_iff, Prod.exists, Source.Form.twoOperands_eq_ok_iff,
    Source.Form.expect_eq_ok_iff, map_type_eq_pair_iff, Except.ok.injEq]
  constructor
  · rintro ⟨_, hfields, a, b, hoperands, _, ha, _, hb, rfl⟩
    exact ⟨hfields, ⟨a, b, hoperands, ha, hb⟩, rfl⟩
  · rintro ⟨hfields, ⟨a, b, hoperands, ha, hb⟩, rfl⟩
    exact ⟨(), hfields, a, b, hoperands, (), ha, (), hb, rfl⟩

lemma vectorRule_eq_ok_iff :
    vectorRule f op operands = .ok n ↔
      f.checkFields ["type"] = .ok () ∧
        ∃ lane, (f.type? "type" = .ok none ∨ f.type? "type" = .ok (some (.vector lane))) ∧
          (op = .div → lane.isFloat) ∧
            operands.map Node.type = [.vector lane, .vector lane] ∧
              n = .node op (.vector lane) .none operands := by
  simp only [vectorRule, Except.bind_eq_ok_iff, Prod.exists, Source.Form.twoOperands_eq_ok_iff,
    map_type_eq_pair_iff]
  constructor
  · rintro ⟨_, hfields, a, b, hoperands, found, htype, hrule⟩
    refine ⟨hfields, ?_⟩
    cases hlane : (found.getD a.type).lane? with
    | none => simp [hlane] at hrule
    | some lane =>
      have hvector : found.getD a.type = .vector lane := by
        generalize found.getD a.type = type at hlane
        cases type <;> simp_all [DataType.lane?]
      have hdiv : op = .div → lane.isFloat := by
        rintro rfl
        by_contra hfloat
        rw [Bool.not_eq_true] at hfloat
        simp [hlane, hfloat] at hrule
      have hguard : (decide (op = .div) && !lane.isFloat) = false := by
        by_cases h : op = .div <;> simp_all
      rw [hlane] at hrule
      simp only [hguard, Bool.false_eq_true, if_false] at hrule
      simp only [hvector, Except.bind_eq_ok_iff, Source.Form.expect_eq_ok_iff,
        Except.ok.injEq] at hrule
      obtain ⟨_, ha, _, hb, rfl⟩ := hrule
      refine ⟨lane, ?_, hdiv, ⟨a, b, hoperands, ha, hb⟩, rfl⟩
      cases found with
      | none => exact .inl htype
      | some type => exact .inr (by rw [htype, ← hvector, Option.getD_some])
  · rintro ⟨hfields, lane, htype, hdiv, ⟨a, b, hoperands, ha, hb⟩, rfl⟩
    have hguard : (decide (op = .div) && !lane.isFloat) = false := by
      by_cases h : op = .div <;> simp_all
    have hexpect : f.expect a (.vector lane) = .ok () ∧ f.expect b (.vector lane) = .ok () :=
      ⟨Source.Form.expect_eq_ok_iff.mpr ha, Source.Form.expect_eq_ok_iff.mpr hb⟩
    rcases htype with htype | htype <;>
      exact ⟨(), hfields, a, b, hoperands, _, htype,
        by simp [ha, DataType.lane?, hguard, hexpect.1, hexpect.2]⟩

lemma shiftRule_eq_ok_iff :
    shiftRule f op type operands = .ok n ↔
      f.checkFields [] = .ok () ∧ operands.map Node.type = [type, .int32] ∧
        n = .node op type .none operands := by
  simp only [shiftRule, Except.bind_eq_ok_iff, Prod.exists, Source.Form.twoOperands_eq_ok_iff,
    Source.Form.expect_eq_ok_iff, map_type_eq_pair_iff, Except.ok.injEq]
  constructor
  · rintro ⟨_, hfields, a, b, hoperands, _, ha, _, hb, rfl⟩
    exact ⟨hfields, ⟨a, b, hoperands, ha, hb⟩, rfl⟩
  · rintro ⟨hfields, ⟨a, b, hoperands, ha, hb⟩, rfl⟩
    exact ⟨(), hfields, a, b, hoperands, (), ha, (), hb, rfl⟩

lemma unaryRule_eq_ok_iff :
    unaryRule f op type operands = .ok n ↔
      f.checkFields [] = .ok () ∧ operands.map Node.type = [type] ∧
        n = .node op type .none operands := by
  simp only [unaryRule, Except.bind_eq_ok_iff, Source.Form.oneOperand_eq_ok_iff,
    Source.Form.expect_eq_ok_iff, map_type_eq_singleton_iff, Except.ok.injEq]
  constructor
  · rintro ⟨_, hfields, a, hoperands, _, ha, rfl⟩
    exact ⟨hfields, ⟨a, hoperands, ha⟩, rfl⟩
  · rintro ⟨hfields, ⟨a, hoperands, ha⟩, rfl⟩
    exact ⟨(), hfields, a, hoperands, (), ha, rfl⟩

lemma returnRule_eq_ok_iff :
    s.returnRule f type operands = .ok n ↔
      f.checkFields [] = .ok () ∧ type = s.returnType ∧
        operands.map Node.type = (if type = .noType then [] else [type]) ∧
          n = .node .ret type .none operands := by
  by_cases htype : type = s.returnType
  · by_cases hnone : type = .noType
    · simp only [returnRule, ne_eq, htype, ← hnone, not_true_eq_false, if_false, if_true,
        Except.bind_eq_ok_iff, Source.Form.noOperand_eq_ok_iff, Except.ok.injEq,
        List.map_eq_nil_iff, true_and]
      constructor
      · rintro ⟨_, hfields, _, hnil, rfl⟩
        exact ⟨hfields, hnil, rfl⟩
      · rintro ⟨hfields, hnil, rfl⟩
        exact ⟨(), hfields, (), hnil, rfl⟩
    · simp only [returnRule, ne_eq, ← htype, hnone, not_true_eq_false, if_false,
        Except.bind_eq_ok_iff, Source.Form.oneOperand_eq_ok_iff, Source.Form.expect_eq_ok_iff,
        map_type_eq_singleton_iff, Except.ok.injEq, true_and]
      constructor
      · rintro ⟨_, hfields, a, hoperands, _, ha, rfl⟩
        exact ⟨hfields, ⟨a, hoperands, ha⟩, rfl⟩
      · rintro ⟨hfields, ⟨a, hoperands, ha⟩, rfl⟩
        exact ⟨(), hfields, a, hoperands, (), ha, rfl⟩
  · simp [returnRule, htype, Except.bind_eq_ok_iff]

lemma target_eq_ok_iff {index : Nat} :
    s.target f = .ok index ↔
      ∃ name, f.name? "target" = .ok (some name) ∧
        s.labels.findIdx? (· == some name) = some index := by
  simp only [target, Except.bind_eq_ok_iff]
  constructor
  · rintro ⟨label, hname, hrule⟩
    split at hrule
    · simp at hrule
    · rename_i name
      refine ⟨name, hname, ?_⟩
      split at hrule <;> simp_all
  · rintro ⟨name, hname, hindex⟩
    exact ⟨_, hname, by simp [hindex]⟩

lemma gotoRule_eq_ok_iff :
    s.gotoRule f operands = .ok n ↔
      f.checkFields ["target"] = .ok () ∧ operands = [] ∧
        ∃ index, s.target f = .ok index ∧ n = .node .goto .noType (.target index) operands := by
  simp only [gotoRule, Except.bind_eq_ok_iff, Source.Form.noOperand_eq_ok_iff, Except.ok.injEq]
  constructor
  · rintro ⟨_, hfields, _, hnil, index, hindex, rfl⟩
    exact ⟨hfields, hnil, index, hindex, rfl⟩
  · rintro ⟨hfields, hnil, index, hindex, rfl⟩
    exact ⟨(), hfields, (), hnil, index, hindex, rfl⟩

lemma compareRule_eq_ok_iff {c : Condition} :
    s.compareRule f c type operands = .ok n ↔
      f.checkFields ["target"] = .ok () ∧ operands.map Node.type = [type, type] ∧
        ∃ index, s.target f = .ok index ∧ n = .node (.ifcmp c) type (.target index) operands := by
  simp only [compareRule, Except.bind_eq_ok_iff, Prod.exists, Source.Form.twoOperands_eq_ok_iff,
    Source.Form.expect_eq_ok_iff, map_type_eq_pair_iff, Except.ok.injEq]
  constructor
  · rintro ⟨_, hfields, a, b, hoperands, _, ha, _, hb, index, hindex, rfl⟩
    exact ⟨hfields, ⟨a, b, hoperands, ha, hb⟩, index, hindex, rfl⟩
  · rintro ⟨hfields, ⟨a, b, hoperands, ha, hb⟩, index, hindex, rfl⟩
    exact ⟨(), hfields, a, b, hoperands, (), ha, (), hb, index, hindex, rfl⟩

lemma expectArguments_eq_ok_iff {position : Nat} {items : List Value}
    (h : items.length = operands.length) :
    expectArguments f position items operands = .ok () ↔
      items.mapM (DataType.ofValue position) = .ok (operands.map Node.type) := by
  induction items generalizing operands with
  | nil =>
    obtain rfl := List.length_eq_zero_iff.mp h.symm
    simp [expectArguments]
  | cons item items ih =>
    obtain ⟨a, rest, rfl⟩ := List.exists_cons_of_length_eq_add_one h.symm
    simp only [List.length_cons, Nat.add_right_cancel_iff] at h
    simp only [expectArguments, List.mapM_cons, List.map_cons, Except.bind_eq_ok_iff, ih h,
      Source.Form.expect_eq_ok_iff, Except.pure_eq_ok, Except.ok.injEq, List.cons.injEq]
    constructor
    · rintro ⟨t, ht, _, ha, hrest⟩
      exact ⟨t, ht, _, hrest, ha.symm, rfl⟩
    · rintro ⟨t, ht, ts, hrest, ha, rfl⟩
      exact ⟨t, ht, (), ha.symm, hrest⟩

/-- The rule for calls once the address is read: the listed types are those of the operands. -/
lemma argumentsWrittenBy_iff :
    Node.ArgumentsWrittenBy f operands ↔
      f.field? "args" = none ∨ ∃ field items, f.field? "args" = some field ∧
        field.value = .list items ∧ items.length = operands.length ∧
          expectArguments f field.position items operands = .ok () := by
  constructor
  · intro h
    cases hargs : f.field? "args" with
    | none => exact .inl rfl
    | some field =>
      obtain ⟨items, hitems, hmap⟩ := h field hargs
      have hlength : items.length = operands.length := by
        rw [(Except.mapM_eq_ok_iff.mp hmap).length_eq, List.length_map]
      exact .inr ⟨field, items, rfl, hitems, hlength, (expectArguments_eq_ok_iff hlength).mpr hmap⟩
  · rintro (hargs | ⟨field, items, hargs, hitems, hlength, hexpect⟩) field' hfield
    · simp [hargs] at hfield
    · obtain rfl : field = field' := by simpa [hargs] using hfield
      exact ⟨items, hitems, (expectArguments_eq_ok_iff hlength).mp hexpect⟩

lemma callRule_eq_ok_iff :
    callRule f type operands = .ok n ↔
      f.checkFields ["address", "args"] = .ok () ∧
        ∃ address position, f.int "address" = .ok (address, position) ∧ 0 ≤ address.toInt ∧
          Node.ArgumentsWrittenBy f operands ∧ (∀ a ∈ operands, a.type.isVector = false) ∧
            n = .node .call type (.address address.toUInt64) operands := by
  have hvectors : (∀ a ∈ operands, a.type.isVector = false) ↔
      operands.find? (fun a => a.type.isVector) = none := by
    simp [List.find?_eq_none]
  rw [hvectors, argumentsWrittenBy_iff]
  simp only [callRule, Except.bind_eq_ok_iff, Prod.exists]
  have hunit {p : Unit → Prop} : (∃ u, p u) ↔ p () := ⟨fun ⟨_, h⟩ => h, fun h => ⟨_, h⟩⟩
  rw [hunit]
  refine and_congr_right fun _ => exists_congr fun address => exists_congr fun position =>
    and_congr_right fun _ => ?_
  by_cases hneg : address.toInt < 0
  · simp [hneg, Int.not_le.mpr hneg]
  simp only [hneg, if_false, Int.not_lt.mp hneg, true_and]
  cases hargs : f.field? "args" with
  | none => cases operands.find? fun a => a.type.isVector <;> simp [eq_comm (a := n)]
  | some field =>
    cases hvalue : field.value with
    | list items =>
      by_cases hlength : items.length = operands.length
      · cases operands.find? fun a => a.type.isVector <;>
          simp [hlength, hvalue, Except.bind_eq_ok_iff, hunit, eq_comm (a := n)]
      · simp [hlength, hvalue]
    | _ => simp [hvalue]

/-! ## Every rule -/

end Scope

namespace Opcode

variable {op : Opcode} {declared : Declared}

/-- What a name in text can declare about an opcode. -/
def Declares (op : Opcode) : Declared → Prop
  | .someVector => op.legalOnVectors
  | .known t =>
    match op with
    | load | const | loadIndirect | storeIndirect => t.isScalar
    | add | sub | mul => t.isWord ∨ t.isFloating
    | div | sqrt => t.isFloating
    | and | or | xor | shl | shr | ushr | rol | neg | ifcmp _ => t.isWord
    | ret | call => t = .noType ∨ t.isReturned
    | goto => t = .noType

lemma Declares.exists_known (h : op.Declares declared) (hop : op.legalOnVectors = false) :
    ∃ t, declared = .known t := by
  cases declared with
  | known t => exact ⟨t, rfl⟩
  | someVector => simp [Declares, hop] at h

lemma declares_of_legalAt {t : DataType} (hlegal : op.legalAt t) (hscalar : t.isScalar) :
    op.Declares (.known t) := by
  cases op <;> cases t <;>
    simp_all [Declares, legalAt, DataType.isScalar, DataType.isWord, DataType.isFloating,
      DataType.isReturned]

lemma isScalar_of_lookup {c : Char} {t : DataType} (h : letters.lookup c = some t) :
    t.isScalar := by
  have hmem : (c, t) ∈ letters := by
    obtain ⟨l₁, l₂, hletters, -⟩ := List.lookup_eq_some_iff.mp h
    simp [hletters]
  revert hmem
  simp only [letters, List.mem_cons, List.not_mem_nil, or_false, Prod.mk.injEq]
  rintro (⟨-, rfl⟩ | ⟨-, rfl⟩ | ⟨-, rfl⟩ | ⟨-, rfl⟩ | ⟨-, rfl⟩ | ⟨-, rfl⟩ | ⟨-, rfl⟩) <;> rfl

lemma declares_of_decodeStemmed? {letter : Char} {stem : List Char}
    (h : decodeStemmed? letter stem = some (op, declared)) : op.Declares declared := by
  simp only [decodeStemmed?, Option.bind_eq_bind, Option.bind_eq_some_iff] at h
  obtain ⟨op', -, h⟩ := h
  split at h
  · split at h
    · simp only [Option.some.injEq, Prod.mk.injEq] at h
      obtain ⟨rfl, rfl⟩ := h
      assumption
    · simp at h
  · obtain ⟨t, ht, h⟩ := Option.bind_eq_some_iff.mp h
    split at h
    · rename_i hlegal
      simp only [Option.some.injEq, Prod.mk.injEq] at h
      obtain ⟨rfl, rfl⟩ := h
      exact declares_of_legalAt hlegal (isScalar_of_lookup ht)
    · simp at h

lemma declares_of_decodeCompare? {rest : List Char}
    (h : decodeCompare? rest = some (op, declared)) : op.Declares declared := by
  unfold decodeCompare? at h
  split at h
  · obtain ⟨c, -, hc⟩ := Option.map_eq_some_iff.mp h
    cases hc
    rfl
  · obtain ⟨c, -, hc⟩ := Option.map_eq_some_iff.mp h
    cases hc
    rfl
  · simp at h

/-- A name declares only types at which its opcode is legal. -/
lemma declares_of_decode? {name : String} (h : decode? name = some (op, declared)) :
    op.Declares declared := by
  unfold decode? at h
  split at h
  · cases h
    rfl
  · cases h
    exact .inl rfl
  · cases h
    exact .inl rfl
  · split at h
    · exact declares_of_decodeCompare? h
    · exact declares_of_decodeStemmed? h
    · simp at h

end Opcode

/-! ## Trees and methods -/

namespace Scope

variable {s : Scope}

lemma tree_eq_ok_iff {f : Form} {es : List Expr} {n : Node} :
    s.tree (.expr f es) = .ok n ↔
      ∃ op declared ns, Opcode.decode? f.head = some (op, declared) ∧ s.operands es = .ok ns ∧
        s.rule f op declared ns = .ok n := by
  rw [tree]
  cases hdecode : Opcode.decode? f.head with
  | none => simp
  | some found =>
    obtain ⟨op, declared⟩ := found
    simp only [Except.bind_eq_ok_iff, Option.some.injEq, Prod.mk.injEq]
    constructor
    · rintro ⟨ns, hns, hrule⟩
      exact ⟨_, _, ns, ⟨rfl, rfl⟩, hns, hrule⟩
    · rintro ⟨_, _, ns, ⟨rfl, rfl⟩, hns, hrule⟩
      exact ⟨ns, hns, hrule⟩

lemma operands_cons_eq_ok_iff {e : Expr} {es : List Expr} {ns : List Node} :
    s.operands (e :: es) = .ok ns ↔
      ∃ n ns', s.tree e = .ok n ∧ n.producesValue ∧ s.operands es = .ok ns' ∧ ns = n :: ns' := by
  simp only [operands, Except.bind_eq_ok_iff]
  constructor
  · rintro ⟨n, hn, h⟩
    cases hvalue : n.producesValue with
    | true =>
      simp only [hvalue, Bool.not_true, Bool.false_eq_true, if_false, Except.bind_eq_ok_iff,
        Except.ok.injEq] at h
      obtain ⟨ns', hns, rfl⟩ := h
      exact ⟨n, ns', hn, hvalue, hns, rfl⟩
    | false => simp [hvalue] at h
  · rintro ⟨n, ns', hn, hvalue, hns, rfl⟩
    exact ⟨n, hn, by simp [hvalue, hns]⟩

end Scope

/-- The form of a block in the list of a method's blocks, with the name that it gives the block. -/
structure Source.Form.IsBlock (f : Form) (name : Option String) : Prop where
  head : f.head = "block"
  fields : f.checkFields ["name"] = .ok ()
  name : f.name? "name" = .ok name

lemma blockLabels_cons_eq_ok_iff {seen labels : List (Option String)} {block : Expr}
    {blocks : List Expr} :
    blockLabels seen (block :: blocks) = .ok labels ↔
      ∃ name, block.form.IsBlock name ∧ (∀ label, name = some label → name ∉ seen) ∧
        blockLabels (name :: seen) blocks = .ok labels := by
  rw [blockLabels]
  by_cases hhead : block.form.head = "block"
  · simp only [hhead, ne_eq, not_true_eq_false, if_false, Except.bind_eq_ok_iff]
    constructor
    · rintro ⟨_, hfields, name, hname, h⟩
      refine ⟨name, ⟨hhead, hfields, hname⟩, ?_⟩
      cases name with
      | none => exact ⟨nofun, h⟩
      | some label =>
        simp only [List.contains_iff_mem] at h
        split at h
        · simp at h
        · rename_i hfresh
          exact ⟨fun _ _ => hfresh, h⟩
    · rintro ⟨name, ⟨_, hfields, hname⟩, hseen, h⟩
      refine ⟨(), hfields, name, hname, ?_⟩
      cases name with
      | none => exact h
      | some label => simp [hseen label rfl, h]
  · simp only [ne_eq, hhead, not_false_eq_true, if_true, Source.Form.fail_bind,
      Source.Form.fail_ne_ok, false_iff, not_exists, not_and]
    rintro name ⟨h, -, -⟩
    exact absurd h hhead

/-- A name can be put before names in which it does not stand. -/
lemma nodup_cons_iff {seen : List (Option String)} {name : Option String} :
    ((name :: seen).filterMap id).Nodup ↔
      (∀ label, name = some label → name ∉ seen) ∧ (seen.filterMap id).Nodup := by
  cases name <;> simp

/-- The labels of blocks are their names, as long as no name stands twice. -/
lemma blockLabels_eq_ok_iff {seen labels : List (Option String)} {blocks : List Expr}
    (hseen : (seen.filterMap id).Nodup) :
    blockLabels seen blocks = .ok labels ↔
      ∃ names, labels = seen.reverse ++ names ∧ (labels.filterMap id).Nodup ∧
        List.Forall₂ (fun e name => e.form.IsBlock name) blocks names := by
  induction blocks generalizing seen with
  | nil =>
    simp only [blockLabels, Except.ok.injEq, List.forall₂_nil_left_iff]
    constructor
    · rintro rfl
      refine ⟨[], by simp, ?_, rfl⟩
      rw [List.filterMap_reverse]
      exact List.nodup_reverse.mpr hseen
    · rintro ⟨_, rfl, -, rfl⟩
      rw [List.append_nil]
  | cons block blocks ih =>
    rw [blockLabels_cons_eq_ok_iff]
    constructor
    · rintro ⟨name, hblock, hfresh, h⟩
      obtain ⟨names, rfl, hnodup, hblocks⟩ := (ih (nodup_cons_iff.mpr ⟨hfresh, hseen⟩)).mp h
      refine ⟨name :: names, ?_, hnodup, .cons hblock hblocks⟩
      rw [List.reverse_cons, List.append_assoc, List.singleton_append]
    · rintro ⟨_, rfl, hnodup, hblocks⟩
      cases hblocks with
      | @cons _ name _ names hblock hblocks =>
        have hrest : seen.reverse ++ name :: names = (name :: seen).reverse ++ names := by
          rw [List.reverse_cons, List.append_assoc, List.singleton_append]
        have hnext : ((name :: seen).filterMap id).Nodup := by
          rw [hrest, List.filterMap_append, List.filterMap_reverse] at hnodup
          exact List.nodup_reverse.mp (List.nodup_append.mp hnodup).1
        exact ⟨name, hblock, (nodup_cons_iff.mp hnext).1,
          (ih hnext).mpr ⟨names, hrest, hnodup, hblocks⟩⟩

/-- What the expression of a method says apart from the blocks. -/
structure Source.Form.IsMethod (f : Form) (m : Method) : Prop where
  head : f.head = "method"
  fields : f.checkFields ["name", "return", "args"] = .ok ()
  name : f.name? "name" = .ok m.name
  returnType : f.type? "return" = .ok (some m.returnType)
  params : paramTypes f = .ok m.params

/-- The blocks with given names and trees. -/
lemma zip_eq_blocks_iff {labels : List (Option String)} {bodies : List (List Node)}
    (hlength : labels.length = bodies.length) {blocks : List Block} :
    ((labels.zip bodies).map fun (name, trees) => (⟨name, trees⟩ : Block)) = blocks ↔
      labels = blocks.map Block.name ∧ bodies = blocks.map Block.trees := by
  constructor
  · rintro rfl
    rw [List.map_map, List.map_map]
    exact ⟨(List.map_fst_zip (by omega)).symm, (List.map_snd_zip (by omega)).symm⟩
  · rintro ⟨rfl, rfl⟩
    rw [List.zip_map', List.map_map]
    exact List.map_id' blocks

/-- When an expression is the one of a method. -/
lemma Method.ofExpr_eq_ok_iff {e : Expr} {m : Method} :
    Method.ofExpr e = .ok m ↔
      e.form.IsMethod m ∧ .noType ∉ m.params ∧ e.children ≠ [] ∧
        (m.blocks.filterMap Block.name).Nodup ∧
          List.Forall₂ (fun e b => e.form.IsBlock b.name ∧ m.scope.trees e.children = .ok b.trees)
            e.children m.blocks := by
  rw [Method.ofExpr]
  simp only [Source.Form.fail_bind, Source.Form.ite_fail_eq_ok_iff, Except.bind_eq_ok_iff]
  constructor
  · rintro ⟨hhead, _, hfields, name, hname, found, htype, h⟩
    cases found with
    | none => simp at h
    | some type =>
      simp only [Except.bind_eq_ok_iff, Source.Form.ite_fail_eq_ok_iff, Except.ok.injEq] at h
      obtain ⟨_, rfl, params, hparams, hnone, hchildren, labels, hlabels, bodies, hbodies, rfl⟩ := h
      obtain ⟨_, rfl, hnodup, hblocks⟩ := (blockLabels_eq_ok_iff (by simp)).mp hlabels
      rw [Except.mapM_eq_ok_iff] at hbodies
      have hlength := hblocks.length_eq.symm.trans hbodies.length_eq
      obtain ⟨blocks, hzip⟩ : ∃ blocks, (labels.zip bodies).map
        (fun (name, trees) => (⟨name, trees⟩ : Block)) = blocks := ⟨_, rfl⟩
      obtain ⟨rfl, rfl⟩ := (zip_eq_blocks_iff (by simpa using hlength)).mp hzip
      rw [hzip]
      rw [List.forall₂_map_right_iff] at hblocks hbodies
      rw [List.filterMap_map, Function.id_comp] at hnodup
      exact ⟨⟨not_not.mp hhead, hfields, hname, htype, hparams⟩, by simpa using hnone,
        by simpa using hchildren, hnodup, hblocks.mp (fun _ _ h h' => ⟨h, h'⟩) hbodies⟩
  · rintro ⟨⟨hhead, hfields, hname, htype, hparams⟩, hnone, hchildren, hnodup, hblocks⟩
    refine ⟨not_not.mpr hhead, (), hfields, m.name, hname, _, htype, ?_⟩
    simp only [Except.bind_eq_ok_iff, Source.Form.ite_fail_eq_ok_iff, Except.ok.injEq]
    refine ⟨_, rfl, m.params, hparams, by simpa using hnone, by simpa using hchildren,
      m.blocks.map Block.name, ?_, m.blocks.map Block.trees, ?_, ?_⟩
    · refine (blockLabels_eq_ok_iff (by simp)).mpr ⟨_, rfl, ?_, ?_⟩
      · rwa [List.filterMap_map, Function.id_comp]
      · exact List.forall₂_map_right_iff.mpr (hblocks.imp fun _ _ h => h.1)
    · rw [Except.mapM_eq_ok_iff]
      exact List.forall₂_map_right_iff.mpr (hblocks.imp fun _ _ h => h.2)
    · rw [(zip_eq_blocks_iff (by simp)).mpr ⟨rfl, rfl⟩]

end TreeCode
