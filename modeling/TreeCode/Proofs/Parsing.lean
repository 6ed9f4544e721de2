import Mathlib
import TreeCode.Proofs.Rules

/-!
# Parsed methods are well typed

Every tree that the typing rules accept obeys the typing table, by induction on the expression it
is built from.  Labels are resolved against a list in which no name stands twice, so a branch goes
to the one block of its name.
-/

namespace TreeCode

open Source (Form Field Value Expr)

lemma Node.type_ne_of_producesValue {n : Node} (h : n.producesValue) : n.type ≠ .noType := by
  unfold producesValue at h
  split at h <;> simp_all

/-- In a list in which no name stands twice, a name has one place. -/
lemma index_unique_of_nodup {labels : List (Option String)} (h : (labels.filterMap id).Nodup)
    {name : String} {i j : Nat} (hi : labels[i]? = some (some name))
    (hj : labels[j]? = some (some name)) : i = j := by
  rw [List.Nodup, List.pairwise_filterMap, List.pairwise_iff_getElem] at h
  obtain ⟨hi', hi⟩ := List.getElem?_eq_some_iff.mp hi
  obtain ⟨hj', hj⟩ := List.getElem?_eq_some_iff.mp hj
  rcases Nat.lt_trichotomy i j with hlt | heq | hgt
  · exact absurd rfl (h i j hi' hj' hlt name hi name hj)
  · exact heq
  · exact absurd rfl (h j i hj' hi' hgt name hj name hi)

namespace Scope

variable {s : Scope} {f : Form} {op : Opcode} {declared : Declared} {type : DataType}
  {imm : Immediate} {operands : List Node} {n : Node}

/-- A scope as the reader of methods makes it: no two blocks have one name, and the index of a
parameter fits its field. -/
structure IsValid (s : Scope) : Prop where
  labels_nodup : (s.labels.filterMap id).Nodup
  params_lt : s.params.length < 2 ^ 32

lemma parm_of_param? (hs : s.IsValid) {v : Int64} (h : s.param? v = some type) :
    v.toInt = (UInt32.ofInt v.toInt).toNat ∧
      s.params[(UInt32.ofInt v.toInt).toNat]? = some type := by
  unfold param? at h
  split at h
  · simp at h
  · rename_i hsign
    have hindex := (List.getElem?_eq_some_iff.mp h).1
    have hlt := hs.params_lt
    have hword : (UInt32.ofInt v.toInt).toNat = v.toInt.toNat := by
      rw [UInt32.ofInt, UInt32.toNat_ofNat']
      omega
    rw [hword]
    exact ⟨by omega, h⟩

lemma names_of_findIdx? (hs : s.IsValid) {name : String} {index : Nat}
    (h : s.labels.findIdx? (· == some name) = some index) : s.Names name index := by
  obtain ⟨hlt, hname, -⟩ := List.findIdx?_eq_some_iff_getElem.mp h
  have hindex : s.labels[index]? = some (some name) := by
    rw [List.getElem?_eq_getElem hlt, beq_iff_eq.mp hname]
  refine fun i => ⟨fun hi => index_unique_of_nodup hs.labels_nodup hi hindex, ?_⟩
  rintro rfl
  exact hindex

/-- What a rule checks of a node beside the operands themselves. -/
structure Checked (s : Scope) (f : Form) (op : Opcode) (type : DataType) (imm : Immediate)
    (operands : List Node) : Prop where
  accepts : op.Accepts type (operands.map Node.type)
  fits : imm.Fits s op type
  returns : op = .ret → type = s.returnType
  immediate : imm.WrittenBy s f
  arguments : op = .call → Node.ArgumentsWrittenBy f operands

lemma accessType_ne_noType (hscalar : ∀ t, declared = .known t → t.isScalar)
    (h : accessType f declared = .ok type) : type ≠ .noType := by
  cases declared with
  | known t =>
    obtain ⟨-, rfl⟩ := accessType_eq_ok_iff.mp h
    exact (DataType.isScalar_iff.mp (hscalar _ rfl)).1
  | someVector =>
    obtain ⟨-, -, hvector⟩ := accessType_eq_ok_iff.mp h
    rintro rfl
    simp [DataType.isVector, DataType.lane?] at hvector

/-- The arithmetic that exists for vectors too. -/
lemma checked_of_arithmetic (hop : op.vectorOp?.isSome) (hdeclares : op.Declares declared)
    (h : (match declared with
      | .known t => binaryRule f op t operands
      | .someVector => vectorRule f op operands) = .ok n) :
    ∃ type imm, n = .node op type imm operands ∧ s.Checked f op type imm operands := by
  cases declared with
  | known t =>
    obtain ⟨-, htypes, rfl⟩ := binaryRule_eq_ok_iff.mp h
    refine ⟨t, .none, rfl, ?_⟩
    cases op with
    | add | sub | mul =>
      exact ⟨⟨hdeclares.elim .inl (.inr ∘ .inl), htypes⟩, rfl, nofun, trivial, nofun⟩
    | div => exact ⟨⟨.inl hdeclares, htypes⟩, rfl, nofun, trivial, nofun⟩
    | _ => cases hop
  | someVector =>
    obtain ⟨-, lane, -, hdiv, htypes, rfl⟩ := vectorRule_eq_ok_iff.mp h
    refine ⟨.vector lane, .none, rfl, ?_⟩
    cases op with
    | add | sub | mul => exact ⟨⟨.inr (.inr rfl), htypes⟩, rfl, nofun, trivial, nofun⟩
    | div =>
      have hlane := hdiv rfl
      refine ⟨⟨.inr ?_, htypes⟩, rfl, nofun, trivial, nofun⟩
      cases lane <;> simp_all [Lane.isFloat]
    | _ => cases hop

/-- A node that a rule gives obeys the typing table and says what its expression says. -/
theorem rule_spec (hs : s.IsValid) (hdecode : Opcode.decode? f.head = some (op, declared))
    (hvalues : ∀ a ∈ operands, a.producesValue) (h : s.rule f op declared operands = .ok n) :
    ∃ type imm, n = .node op type imm operands ∧ s.Checked f op type imm operands := by
  have hdeclares := Opcode.declares_of_decode? hdecode
  cases op with
  | load =>
    obtain ⟨t, rfl⟩ := hdeclares.exists_known rfl
    obtain ⟨-, rfl, v, position, hint, hparam, rfl⟩ := loadRule_eq_ok_iff.mp h
    obtain ⟨hword, hparm⟩ := parm_of_param? hs hparam
    exact ⟨_, _, rfl, ⟨hdeclares, rfl⟩, ⟨_, rfl, hparm⟩, nofun, ⟨v, position, hint, hword⟩, nofun⟩
  | const =>
    obtain ⟨t, rfl⟩ := hdeclares.exists_known rfl
    obtain ⟨-, rfl, field, hpos, imm, hlit, rfl⟩ := constRule_eq_ok_iff.mp h
    refine ⟨_, _, rfl, ⟨hdeclares, rfl⟩, ?_, nofun, ?_, nofun⟩
    · generalize field.value = value at hlit
      cases hlit with
      | int hfloat hadmits => exact .inr ⟨hfloat, _, rfl, hadmits⟩
      | ofInt hfloat => exact .inl ⟨hfloat, _, rfl⟩
      | float hfloat => exact .inl ⟨hfloat, _, rfl⟩
    · generalize hval : field.value = value at hlit
      cases hlit with
      | int => exact ⟨field, hpos, hval⟩
      | ofInt => exact ⟨field, hpos, .inr ⟨_, hval, rfl⟩⟩
      | float => exact ⟨field, hpos, .inl hval⟩
  | loadIndirect =>
    obtain ⟨t, ht, htypes, o, ho, rfl⟩ := loadIndirectRule_eq_ok_iff.mp h
    have hnone := accessType_ne_noType (fun t ht => by subst ht; exact hdeclares) ht
    exact ⟨t, _, rfl, ⟨hnone, htypes⟩, ⟨o, rfl⟩, nofun, accessOffset_eq_ok_iff.mp ho, nofun⟩
  | storeIndirect =>
    obtain ⟨t, ht, htypes, o, ho, rfl⟩ := storeIndirectRule_eq_ok_iff.mp h
    have hnone := accessType_ne_noType (fun t ht => by subst ht; exact hdeclares) ht
    exact ⟨t, _, rfl, ⟨hnone, htypes⟩, ⟨o, rfl⟩, nofun, accessOffset_eq_ok_iff.mp ho, nofun⟩
  | add | sub | mul | div => exact checked_of_arithmetic rfl hdeclares h
  | and | or | xor =>
    obtain ⟨t, rfl⟩ := hdeclares.exists_known rfl
    obtain ⟨-, htypes, rfl⟩ := binaryRule_eq_ok_iff.mp h
    exact ⟨t, _, rfl, ⟨hdeclares, htypes⟩, rfl, nofun, trivial, nofun⟩
  | shl | shr | ushr | rol =>
    obtain ⟨t, rfl⟩ := hdeclares.exists_known rfl
    obtain ⟨-, htypes, rfl⟩ := shiftRule_eq_ok_iff.mp h
    exact ⟨t, _, rfl, ⟨hdeclares, htypes⟩, rfl, nofun, trivial, nofun⟩
  | neg | sqrt =>
    obtain ⟨t, rfl⟩ := hdeclares.exists_known rfl
    obtain ⟨-, htypes, rfl⟩ := unaryRule_eq_ok_iff.mp h
    exact ⟨t, _, rfl, ⟨hdeclares, htypes⟩, rfl, nofun, trivial, nofun⟩
  | ret =>
    obtain ⟨t, rfl⟩ := hdeclares.exists_known rfl
    obtain ⟨-, hreturn, htypes, rfl⟩ := returnRule_eq_ok_iff.mp h
    refine ⟨t, _, rfl, ?_, rfl, fun _ => hreturn, trivial, nofun⟩
    rcases hdeclares with rfl | hreturned
    · exact .inl ⟨rfl, htypes⟩
    · have hnone : t ≠ .noType := by
        rintro rfl
        cases hreturned
      rw [Declared.scalar, if_neg hnone] at htypes
      exact .inr ⟨hreturned, htypes⟩
  | goto =>
    obtain ⟨-, rfl, index, htarget, rfl⟩ := gotoRule_eq_ok_iff.mp h
    obtain ⟨name, hname, hindex⟩ := target_eq_ok_iff.mp htarget
    have hnames := names_of_findIdx? hs hindex
    exact ⟨_, _, rfl, ⟨rfl, rfl⟩, ⟨index, name, rfl, (hnames index).mpr rfl⟩, nofun,
      ⟨name, hname, hnames⟩, nofun⟩
  | ifcmp c =>
    obtain ⟨t, rfl⟩ := hdeclares.exists_known rfl
    obtain ⟨-, htypes, index, htarget, rfl⟩ := compareRule_eq_ok_iff.mp h
    obtain ⟨name, hname, hindex⟩ := target_eq_ok_iff.mp htarget
    have hnames := names_of_findIdx? hs hindex
    exact ⟨_, _, rfl, ⟨hdeclares, htypes⟩, ⟨index, name, rfl, (hnames index).mpr rfl⟩, nofun,
      ⟨name, hname, hnames⟩, nofun⟩
  | call =>
    obtain ⟨t, rfl⟩ := hdeclares.exists_known rfl
    obtain ⟨-, v, position, hv, hpos, hargs, hvector, rfl⟩ := callRule_eq_ok_iff.mp h
    have hword : v.toInt = v.toUInt64.toNat := by
      rw [Int64.toNat_toUInt64_of_le (Int64.le_iff_toInt_le.mpr hpos), Int64.toNatClampNeg,
        Int.toNat_of_nonneg hpos]
    have hlt := v.toInt_lt
    refine ⟨_, _, rfl, ⟨hdeclares, ?_⟩, ⟨_, rfl, by omega⟩, nofun, ⟨v, position, hv, hword⟩,
      fun _ => hargs⟩
    simp only [List.mem_map, forall_exists_index, and_imp, forall_apply_eq_imp_iff₂]
    intro a ha
    exact DataType.isScalar_iff.mpr ⟨Node.type_ne_of_producesValue (hvalues a ha), hvector a ha⟩

/-! ## Trees -/

mutual

/-- A tree that an expression gives is well typed. -/
theorem tree_spec (hs : s.IsValid) :
    ∀ {e : Expr} {n : Node}, s.tree e = .ok n → n.WellTyped s ∧ n.WrittenBy s e
  | .expr f es, n, h => by
    obtain ⟨op, declared, ns, hdecode, hns, hrule⟩ := tree_eq_ok_iff.mp h
    obtain ⟨hvalues, hoperands, hwritten⟩ := operands_spec hs hns
    obtain ⟨type, imm, rfl, hchecked⟩ := rule_spec hs hdecode hvalues hrule
    exact ⟨.node hchecked.accepts hchecked.fits hchecked.returns hvalues hoperands,
      .node hdecode hchecked.immediate hchecked.arguments hwritten⟩

/-- The operands that expressions give are well typed and have values. -/
theorem operands_spec (hs : s.IsValid) :
    ∀ {es : List Expr} {ns : List Node}, s.operands es = .ok ns →
      (∀ n ∈ ns, n.producesValue) ∧ (∀ n ∈ ns, n.WellTyped s) ∧
        List.Forall₂ (Node.WrittenBy s) es ns
  | [], ns, h => by
    cases h
    simp
  | e :: es, ns, h => by
    obtain ⟨n, ns', hn, hvalue, hns, rfl⟩ := operands_cons_eq_ok_iff.mp h
    obtain ⟨htyped, hwritten⟩ := tree_spec hs hn
    obtain ⟨hvalues, hoperands, hwrittens⟩ := operands_spec hs hns
    exact ⟨List.forall_mem_cons.mpr ⟨hvalue, hvalues⟩,
      List.forall_mem_cons.mpr ⟨htyped, hoperands⟩, .cons hwritten hwrittens⟩

end

end Scope

namespace Method

lemma scope_isValid {m : Method} (hnodup : (m.blocks.filterMap Block.name).Nodup)
    (hparams : m.params.length < 2 ^ 32) : m.scope.IsValid := by
  refine ⟨?_, hparams⟩
  rwa [scope, List.filterMap_map, Function.id_comp]

/-- The method of an expression is well typed and says what the expression says. -/
theorem wellTyped_of_ofExpr {e : Expr} {m : Method} (h : ofExpr e = .ok m)
    (hparams : m.params.length < 2 ^ 32) : m.WellTyped ∧ m.WrittenBy e := by
  obtain ⟨-, hnone, hchildren, hnodup, hblocks⟩ := ofExpr_eq_ok_iff.mp h
  have hvalid := scope_isValid hnodup hparams
  have htrees : List.Forall₂ (fun e b => e.form.IsBlock b.name ∧
      List.Forall₂ (fun e n => m.scope.tree e = .ok n) e.children b.trees) e.children m.blocks :=
    hblocks.imp fun _ _ hblock => ⟨hblock.1, Except.mapM_eq_ok_iff.mp hblock.2⟩
  refine ⟨⟨?_, hnone, hnodup, ?_⟩, ?_⟩
  · intro hnil
    rw [hnil] at hblocks
    exact hchildren (List.forall₂_nil_right_iff.mp hblocks)
  · refine forall_mem_of_forall₂ htrees fun _ b hblock => ?_
    exact forall_mem_of_forall₂ hblock.2 fun _ _ htree => (Scope.tree_spec hvalid htree).1
  · refine htrees.imp fun block b hblock => ⟨hblock.1.name, ?_⟩
    exact hblock.2.imp fun _ _ htree => (Scope.tree_spec hvalid htree).2

/-- A loop, and a call with the parameter as its argument. -/
def loopText : String :=
  "(method return=Int32 args=[Int32] (block name=top " ++
    "(ificmplt target=top (iload parm=0) (iconst 3)) " ++
    "(ireturn (icall address=64 args=[Int32] (iload parm=0)))))"

/-- The method of the text `loopText`. -/
def loop : Method :=
  ⟨none, .int32, [.int32], [⟨some "top",
    [.node (.ifcmp .lt) .int32 (.target 0)
        [.node .load .int32 (.parm 0) [], .node .const .int32 (.int 3) []],
      .node .ret .int32 .none
        [.node .call .int32 (.address 64) [.node .load .int32 (.parm 0) []]]]⟩]⟩

set_option maxRecDepth 2000 in
lemma parse_loopText : parse loopText = .ok loop := by
  cbv

end Method

end TreeCode
