import Mathlib.Tactic.Common
import TreeCode.Proofs.ControlFlow
import TreeCode.Proofs.Lowered
import TreeCode.Proofs.Parsing
import TreeCode.Proofs.Placing

/-!
# Why parsed methods are refused

What the rules of the text let through never leads the check of control flow or lowering to a place
that there is not: every block that the search meets is one, every operand that lowering asks for is
there, and every node has code.  What remains are the limits of registers, of the frame and of the
processor.
-/

namespace TreeCode

open Source (Form Field Value Expr)

/-! ## Branches -/

namespace Scope

variable {s : Scope}

lemma producesValue_of_operands {es : List Expr} {ns : List Node} (h : s.operands es = .ok ns) :
    ∀ n ∈ ns, n.producesValue := by
  induction es generalizing ns with
  | nil =>
    cases h
    simp
  | cons e es ih =>
    obtain ⟨n, ns', -, hvalue, hns, rfl⟩ := operands_cons_eq_ok_iff.mp h
    exact List.forall_mem_cons.mpr ⟨hvalue, ih hns⟩

/-- A branch that is read goes to a block.  Only loads of parameters look at how many of them there
are, so the rules may be taken for a scope without any. -/
lemma target_lt_of_tree (hnodup : (s.labels.filterMap id).Nodup) {e : Expr} {n : Node} {t : Nat}
    (h : s.tree e = .ok n) (ht : n.BranchesTo t) : t < s.labels.length := by
  obtain ⟨form, es⟩ := e
  obtain ⟨op, declared, ns, hdecode, hns, hrule⟩ := tree_eq_ok_iff.mp h
  have hvalid : ({ s with params := [] } : Scope).IsValid := ⟨hnodup, by simp⟩
  by_cases hload : op = .load
  · subst hload
    obtain ⟨-, -, v, position, -, -, rfl⟩ := loadRule_eq_ok_iff.mp hrule
    obtain ⟨hop | ⟨c, hop⟩, -⟩ := ht <;> cases hop
  · have hrule' : ({ s with params := [] } : Scope).rule form op declared ns = .ok n := by
      cases op <;> first | exact hrule | exact absurd rfl hload
    obtain ⟨type, imm, rfl, hchecked⟩ :=
      rule_spec hvalid hdecode (producesValue_of_operands hns) hrule'
    have hfits := hchecked.fits
    obtain ⟨hop, himm⟩ := ht
    simp only [Node.op, Node.imm] at hop himm
    subst himm
    obtain ⟨t', name, heq, hlabel⟩ : ∃ t' name, Immediate.target t = .target t' ∧
        s.labels[t']? = some (some name) := by
      rcases hop with rfl | ⟨c, rfl⟩ <;> exact hfits
    obtain rfl := Immediate.target.inj heq
    exact (List.getElem?_eq_some_iff.mp hlabel).1

end Scope

namespace Method

variable {text : String} {m : Method} {cpu : Cpu} {base : UInt64} {options : Options}
  {fallback : VectorFallback}

lemma blocks_ne_nil_of_ofExpr {e : Expr} (h : ofExpr e = .ok m) : m.blocks ≠ [] := by
  obtain ⟨-, -, hchildren, -, hblocks⟩ := ofExpr_eq_ok_iff.mp h
  intro hnil
  rw [hnil] at hblocks
  exact hchildren (List.forall₂_nil_right_iff.mp hblocks)

/-- The branches of a method that is read go to blocks of it. -/
lemma target_lt_of_ofExpr {e : Expr} (h : ofExpr e = .ok m) {b : Block} (hb : b ∈ m.blocks)
    {n : Node} (hn : n ∈ b.trees) {t : Nat} (ht : n.BranchesTo t) : t < m.blocks.length := by
  obtain ⟨-, -, -, hnodup, hblocks⟩ := ofExpr_eq_ok_iff.mp h
  obtain ⟨e', -, -, htrees⟩ := exists_mem_of_forall₂ hblocks b hb
  obtain ⟨e'', -, htree⟩ := exists_mem_of_forall₂ (Except.mapM_eq_ok_iff.mp htrees) n hn
  have hlabels : (m.scope.labels.filterMap id).Nodup := by
    rwa [scope, List.filterMap_map, Function.id_comp]
  have hlt := Scope.target_lt_of_tree hlabels htree ht
  rwa [scope, List.length_map] at hlt

/-- An edge of a method that is read and whose blocks have no defect goes to a block. -/
lemma edge_lt_of_ofExpr {e : Expr} (h : ofExpr e = .ok m)
    (hdefect : blockDefect? m.blocks.length 0 m.blocks = none) {i t : Nat} (ht : m.Edge i t) :
    t < m.blocks.length := by
  cases ht with
  | branch hb hn ht => exact target_lt_of_ofExpr h (List.mem_of_getElem? hb) hn ht
  | fall hb hends =>
    have hall : m.blocks = m.blocks.drop 0 := rfl
    have hi := (List.getElem?_eq_some_iff.mp hb).1
    by_contra hlast
    rcases blockDefect?_eq hall with ⟨_, _, -, -, -, he⟩ | ⟨hnone, -⟩
    · rw [hdefect] at he
      cases he
    · exact hnone i (Nat.zero_le i) _ (.fallsOffEnd hb (by omega) hends)

/-- What the search for reachable blocks meets are blocks, and so are their successors. -/
lemma searched_lt_of_ofExpr {e : Expr} (h : ofExpr e = .ok m)
    (hdefect : blockDefect? m.blocks.length 0 m.blocks = none) {turns k : Nat}
    (hk : k ∈ (m.searched turns).work ∨ k ∈ (m.searched turns).reached) :
    k < m.blocks.length ∧ ∀ t ∈ m.successors k, t < m.blocks.length := by
  refine ⟨?_, fun t ht => edge_lt_of_ofExpr h hdefect (mem_successors_iff.mp ht)⟩
  have hreaches := (sound_searched turns).reaches k hk
  cases hreaches with
  | refl => exact List.length_pos_of_ne_nil (blocks_ne_nil_of_ofExpr h)
  | tail _ hedge => exact edge_lt_of_ofExpr h hdefect hedge

/-! ## Lowering -/

/-- Lowering of a method that is read. -/
lemma lowered_of_ofExpr {e : Expr} (h : ofExpr e = .ok m) : m.Lowered cpu fallback := by
  refine lowered fun arguments hassign => (wellTyped_of_ofExpr h ?_).1.trees_typed
  exact Nat.lt_of_le_of_lt (Isa.length_le_of_assignAll hassign) (by decide)

/-- What is unsupported of a method that is read: parameters or arguments without registers, and on
AArch64 a frame that is too large. -/
inductive Unsupported (m : Method) (cpu : Cpu) : Obstacle → Prop where
  | parameters (h : cpu.isa.convention.assignAll m.params = none) :
      Unsupported m cpu (.parameters m.params)
  | arguments {type : DataType} {imm : Immediate} {children : List Node}
      (hn : m.HasNode (.node .call type imm children))
      (h : cpu.isa.convention.assignAll (children.map Node.type) = none) :
      Unsupported m cpu (.arguments children.length)
  | frame {bytes : UInt32} (hisa : cpu.isa = .aarch64) (hbytes : 4095 < bytes)
      (hsize : 4095 < (Frame.plan m cpu.isa.deepest).size) : Unsupported m cpu (.frame bytes)

/-- A frame that AArch64 refuses is the one of the method. -/
lemma size_of_emits {frame : UInt32} (hisa : cpu.isa = .aarch64) (hframe : A64.maxFrame < frame)
    (h : m.Emits cpu (.instr (.prologue frame))) :
    4095 < (Frame.plan m cpu.isa.deepest).size := by
  cases h with
  | prologue =>
    have hlt := UInt32.lt_iff_toNat_lt.mp hframe
    rw [UInt32.toNat_ofNat'] at hlt
    exact Nat.lt_of_lt_of_le hlt (Nat.mod_le _ _)
  | instr hencodes =>
    by_contra hsmall
    have hnone := hencodes fun _ => Nat.le_of_not_lt hsmall
    rw [hisa] at hnone
    simp [Isa.Encodes, Isa.emission, A64.select, hframe] at hnone

lemma unsupported_of_assemble {e : Expr} (h : ofExpr e = .ok m) {opcode : String}
    {type : DataType} {o : Obstacle}
    (hassemble : m.assemble cpu base options = .error (.unsupported opcode type o)) :
    m.Unsupported cpu o := by
  have hlowered : m.Lowered cpu options.fallback := lowered_of_ofExpr h
  rcases lower_of_assemble_eq_error hassemble trivial with hresult | ⟨hisa, frame, hmem, hframe, he⟩
  · cases hlowered.stops _ hresult with
    | parameters hassign => exact .parameters hassign
    | arguments hn hassign => exact .arguments hn hassign
  · cases he
    rcases hlowered.emits _ hmem with hemits | ⟨label, hbind⟩
    · exact .frame hisa hframe (size_of_emits hisa hframe hemits)
    · cases hbind

lemma lacking_of_assemble {e : Expr} (h : ofExpr e = .ok m) {opcode : String}
    {type : DataType} {c : Capability}
    (hassemble : m.assemble cpu base options = .error (.unsupportedCapability opcode type c)) :
    options.fallback = .fail ∧ ∃ op vop l imm children,
      m.HasNode (.node op (.vector l) imm children) ∧ op.vectorOp? = some vop ∧
        cpu.supports vop l = false ∧ opcode = vop.mnemonic ∧ type = .vector l := by
  have hlowered : m.Lowered cpu options.fallback := lowered_of_ofExpr h
  rcases lower_of_assemble_eq_error hassemble trivial with hresult | ⟨-, _, -, -, he⟩
  · cases hlowered.stops _ hresult with
    | lacking hn hop hfallback hlacks => exact ⟨hfallback, _, _, _, _, _, hn, hop, hlacks, rfl, rfl⟩
  · cases he

/-- **Parsed methods never reach internal failures.**  The search for reachable blocks meets only
blocks of the method.  Lowering ends with an error only if parameters, arguments or values do not
get registers, or if a processor lacks an operation on vectors that must not be taken apart.  So a
method is unsupported only because of its parameters, the arguments of a call or, on AArch64, a
frame of more than 4095 bytes. -/
theorem refused_of_parse (h : parse text = .ok m) (cpu : Cpu) (base : UInt64)
    (options : Options) :
    (blockDefect? m.blocks.length 0 m.blocks = none → ∀ turns k,
      k ∈ (m.searched turns).work ∨ k ∈ (m.searched turns).reached →
        k < m.blocks.length ∧ ∀ t ∈ m.successors k, t < m.blocks.length) ∧
    (∀ e, (m.lower cpu options.fallback).result = .error e → m.Stops cpu options.fallback e) ∧
    (∀ opcode type o, m.assemble cpu base options = .error (.unsupported opcode type o) →
      m.Unsupported cpu o) ∧
    ∀ opcode type c,
      m.assemble cpu base options = .error (.unsupportedCapability opcode type c) →
        options.fallback = .fail ∧ ∃ op vop l imm children,
          m.HasNode (.node op (.vector l) imm children) ∧ op.vectorOp? = some vop ∧
            cpu.supports vop l = false ∧ opcode = vop.mnemonic ∧ type = .vector l := by
  obtain ⟨e, -, hm⟩ := Except.bind_eq_ok_iff.mp h
  exact ⟨fun hdefect turns k => searched_lt_of_ofExpr hm hdefect,
    fun e he => (lowered_of_ofExpr hm).stops e he,
    fun opcode type o => unsupported_of_assemble hm, fun opcode type c => lacking_of_assemble hm⟩

/-- A method that multiplies vectors of 64-bit integers. -/
def productText : String :=
  "(method return=NoType args=[Address] (block (vstorei type=VectorInt64 (aload parm=0) " ++
    "(vmul (vloadi type=VectorInt64 (aload parm=0)) (vloadi type=VectorInt64 (aload parm=0)))) " ++
    "(return)))"

/-- The method of the text `productText`. -/
def product : Method :=
  let address : Node := .node .load .address (.parm 0) []
  let factor : Node := .node .loadIndirect (.vector .i64) (.offset 0) [address]
  ⟨none, .noType, [.address], [⟨none, [
    .node .storeIndirect (.vector .i64) (.offset 0)
      [address, .node .mul (.vector .i64) .none [factor, factor]],
    .node .ret .noType .none []]⟩]⟩

set_option maxRecDepth 2000 in
lemma parse_productText : parse productText = .ok product := by
  cbv

/-- AArch64 does not multiply vectors of 64-bit integers, which is why `product` is refused. -/
theorem refused_of_parse_productText :
    parse productText = .ok product ∧
      ∃ c, product.assemble (.baseline .aarch64) 0x10000 .default =
          .error (.unsupportedCapability "vmul" (.vector .i64) c) ∧
        ∃ op vop l imm children, product.HasNode (.node op (.vector l) imm children) ∧
          op.vectorOp? = some vop ∧ (Cpu.baseline .aarch64).supports vop l = false ∧
            "vmul" = vop.mnemonic ∧ DataType.vector .i64 = .vector l := by
  have hrefused : product.assemble (.baseline .aarch64) 0x10000 .default =
      .error (.unsupportedCapability "vmul" (.vector .i64)
        (.vectorInstruction .mul (.vector .i64))) := rfl
  exact ⟨parse_productText, _, hrefused,
    ((refused_of_parse parse_productText (.baseline .aarch64) 0x10000 .default).2.2.2 _ _ _
      hrefused).2⟩

end Method

end TreeCode
