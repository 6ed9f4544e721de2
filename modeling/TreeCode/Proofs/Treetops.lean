import Mathlib.Tactic.Common
import TreeCode.Proofs.Trees

/-!
# The trees of a block

A tree of a block yields straight code, behind which control goes on to the next tree, to another
block or to the end of the method.
-/

namespace TreeCode

namespace Plan

open Lowering hiding pure bind

variable {p : Plan} {s : Scope} {last : Bool} {op : Opcode} {type : DataType} {imm : Immediate}
  {children : List Node} {ops body tail : List Op} {u : Unit}

lemma yields_target_iff {t : Nat} :
    (p.target op type imm).Yields ops t ↔ imm = .target t ∧ t < p.blocks ∧ ops = [] := by
  unfold target
  split
  · rename_i t'
    by_cases h : t' < p.blocks
    · simp only [h, if_true, yields_pure_iff, Immediate.target.injEq]
      constructor
      · rintro ⟨rfl, rfl⟩
        exact ⟨rfl, h, rfl⟩
      · rintro ⟨rfl, -, rfl⟩
        exact ⟨rfl, rfl⟩
    · simp only [h, if_false, not_yields_unsupported, Immediate.target.injEq, false_iff]
      rintro ⟨rfl, h', -⟩
      exact h h'
  · rename_i himm
    simp only [not_yields_unsupported, false_iff]
    rintro ⟨rfl, -⟩
    exact himm t rfl

/-- The code of a tree of a block by its kind: straight code, and how control goes on. -/
inductive Placed (p : Plan) (last : Bool) (op : Opcode) (type : DataType) (imm : Immediate)
    (children : List Node) : (body tail : List Op) → Prop
  | store {ops : List Op} {a b : Reg} (op_eq : op = .storeIndirect)
      (operands : (p.evalPair [] 0 0 children).Yields ops (a, b)) :
      Placed p last op type imm children
        (ops ++ [.instr (.store (.ofType type) b (.reg a.index) (accessOffset imm))]) []
  | leave (op_eq : op = .ret) (children_eq : children = []) :
      Placed p last op type imm children []
        (if last then [] else [.transfer (.jump p.epilogue)])
  | ret {ops : List Op} {a : Reg} (op_eq : op = .ret) (children_ne : children ≠ [])
      (operand : (p.evalFirst [] 0 0 children).Yields ops a) :
      Placed p last op type imm children (ops ++ [.instr (.moveResult a)])
        (if last then [] else [.transfer (.jump p.epilogue)])
  | goto {t : Nat} (op_eq : op = .goto) (imm_eq : imm = .target t) (target_lt : t < p.blocks) :
      Placed p last op type imm children [] [.transfer (.jump t)]
  | branch {ops : List Op} {a b : Reg} {c : Condition} {t : Nat} (op_eq : op = .ifcmp c)
      (imm_eq : imm = .target t) (target_lt : t < p.blocks)
      (operands : (p.evalPair [] 0 0 children).Yields ops (a, b)) :
      Placed p last op type imm children (ops ++ [.instr (.compare type.isWide a.index b.index)])
        [.transfer (.branchIf c t)]
  | call {ops : List Op} {target : UInt64} {arguments : List Argument} {result : Option Reg}
      (op_eq : op = .call)
      (begun : p.Begun type imm (children.map Node.type) 0 target arguments result)
      (operands : (p.evalArguments [] 0 0 0 children).Yields ops ()) :
      Placed p last op type imm children
        (ops ++ p.callOps [] 0 ⟨target, arguments.zip (children.map Node.type), result⟩) []
  | value {ops : List Op} {r : Reg}
      (op_ne : op ≠ .call ∧ op ≠ .ret ∧ op ≠ .goto ∧ op ≠ .storeIndirect ∧ ∀ c, op ≠ .ifcmp c)
      (value : (p.eval [] 0 0 (.node op type imm children)).Yields ops r) :
      Placed p last op type imm children ops []

lemma yields_leave_iff :
    (if !last then Lowering.op (.transfer (.jump p.epilogue)) else Pure.pure ()).Yields ops u ↔
    ops = if last then [] else [.transfer (.jump p.epilogue)] := by
  cases last
  · exact yields_op_iff
  · exact yields_pure_iff.trans (by simp)

lemma offset_eq : (Node.node op type imm children).offset = accessOffset imm := by
  cases imm <;> rfl

/-- The code of a tree of a block is of one of the kinds. -/
lemma placed_of_treetop (h : (p.treetop last (.node op type imm children)).Yields ops u) :
    ∃ body tail, p.Placed last op type imm children body tail ∧ ops = body ++ tail := by
  unfold treetop at h
  split at h
  · rename_i hop
    obtain ⟨o, ⟨a, b⟩, _, hoperands, hstore, rfl⟩ := yields_bind_iff.mp h
    obtain rfl := yields_instr_iff.mp hstore
    exact ⟨_, _, .store hop hoperands, by simp [Node.type, offset_eq]⟩
  · rename_i hop
    cases children with
    | nil =>
      exact ⟨_, _, .leave hop rfl, yields_leave_iff.mp h⟩
    | cons a rest =>
      obtain ⟨o, r, _, hvalue, hmove, rfl⟩ := yields_bind_iff.mp h
      obtain ⟨_, _, _, hinstr, hlast, rfl⟩ := yields_bind_iff.mp hmove
      obtain rfl := yields_instr_iff.mp hinstr
      obtain rfl := yields_leave_iff.mp hlast
      exact ⟨_, _, .ret hop (by simp) hvalue, by simp⟩
  · rename_i hop
    obtain ⟨_, t, _, htarget, hjump, rfl⟩ := yields_bind_iff.mp h
    obtain ⟨himm, hlt, rfl⟩ := yields_target_iff.mp htarget
    obtain rfl := yields_op_iff.mp hjump
    exact ⟨_, _, .goto hop himm hlt, rfl⟩
  · rename_i c hop
    obtain ⟨o, ⟨a, b⟩, _, hoperands, hrest, rfl⟩ := yields_bind_iff.mp h
    obtain ⟨_, _, _, hcompare, hlast, rfl⟩ := yields_bind_iff.mp hrest
    obtain ⟨_, t, _, htarget, hjump, rfl⟩ := yields_bind_iff.mp hlast
    obtain rfl := yields_instr_iff.mp hcompare
    obtain ⟨himm, hlt, rfl⟩ := yields_target_iff.mp htarget
    obtain rfl := yields_op_iff.mp hjump
    exact ⟨_, _, .branch hop himm hlt hoperands, by simp [Node.type]⟩
  · rename_i hop
    obtain ⟨_, c, _, hbegin, hrest, rfl⟩ := yields_bind_iff.mp h
    obtain ⟨o, _, _, hoperands, hend, rfl⟩ := yields_bind_iff.mp hrest
    obtain ⟨rfl, target, arguments, hbegun, hc⟩ := begun_of_beginCall hbegin
    obtain ⟨_, _, _, hcode, hpure, rfl⟩ := yields_bind_iff.mp hend
    obtain ⟨rfl, -⟩ := yields_endCall_iff.mp hcode
    obtain ⟨rfl, -⟩ := yields_pure_iff.mp hpure
    rw [hc]
    exact ⟨_, _, .call hop hbegun hoperands, by simp [Node.children]⟩
  · rename_i hstore hret hgoto hifcmp hcall
    obtain ⟨o, r, _, hvalue, hpure, rfl⟩ := yields_bind_iff.mp h
    obtain ⟨rfl, -⟩ := yields_pure_iff.mp hpure
    exact ⟨_, _, .value ⟨hcall, hret, hgoto, hstore, hifcmp⟩ hvalue, rfl⟩

/-- The code of a well-typed tree of a block makes the calls of the tree. -/
lemma Placed.sited (h : p.Placed last op type imm children body tail)
    (hn : (Node.node op type imm children).WellTyped s) :
    Sited body (Node.node op type imm children).treetopSites
      (Node.node op type imm children).callShape := by
  have hsited (c : Node) (hc : c ∈ children) {held level depth ops r}
      (h : (p.eval held level depth c).Yields ops r) : Sited ops c.callSites c.callShape := by
    cases hn with
    | node _ _ _ _ operands => exact sited_of_eval (operands c hc) h
  have hsites (hop : op ≠ .call) : (Node.node op type imm children).treetopSites =
        Node.callSitesOf children ∧
      (Node.node op type imm children).callShape = Node.callShapes children := by
    simp [Node.treetopSites, Node.op, Node.callSites, Node.callShape, hop]
  have hroot {r : Reg} {ops : List Op}
      (h : (p.eval [] 0 0 (.node op type imm children)).Yields ops r) := sited_of_eval hn h
  cases hn with
  | node accepts _ _ _ _ =>
    cases h with
    | store hop hoperands =>
      subst hop
      rw [(hsites (by simp)).1, (hsites (by simp)).2]
      exact ((operands_of_pair accepts.2 hoperands).sited hsited).append (.instr (by simp))
    | leave hop hchildren =>
      subst hop hchildren
      exact ⟨.nil, Nat.zero_le _⟩
    | ret hop hchildren hoperand =>
      subst hop
      rw [(hsites (by simp)).1, (hsites (by simp)).2]
      have htypes : children.map Node.type = [type] := by
        rcases accepts with ⟨-, hnone⟩ | ⟨-, htypes⟩
        · exact (hchildren (by simpa using hnone)).elim
        · exact htypes
      exact ((operands_of_first htypes hoperand).sited hsited).append (.instr (by simp))
    | goto hop himm hlt =>
      subst hop
      obtain rfl : children = [] := by simpa using accepts.2
      exact ⟨.nil, Nat.zero_le _⟩
    | branch hop himm hlt hoperands =>
      subst hop
      rw [(hsites (by simp)).1, (hsites (by simp)).2]
      exact ((operands_of_pair accepts.2 hoperands).sited hsited).append (.instr (by simp))
    | call hop hbegun hoperands =>
      subst hop
      obtain ⟨hstraight, hwidth⟩ := sited_of_evalArguments hsited hoperands
      refine ⟨?_, ?_⟩
      · exact hstraight.append (Machine.straight_callOps _ _)
      · rw [Node.callShape, if_pos rfl]
        exact Nat.max_le.mpr ⟨hwidth, by simpa using hbegun.length_le⟩
    | value hop hvalue =>
      rw [Node.treetopSites, Node.op, if_neg hop.1]
      exact hroot hvalue

/-- Behind the straight code of a tree there is no call and no label. -/
lemma Placed.tail_plain (h : p.Placed last op type imm children body tail) :
    tail.countP Op.isCall = 0 ∧ ∀ label, .bind label ∉ tail := by
  cases h <;> first | exact ⟨rfl, by simp⟩ | (cases last <;> exact ⟨rfl, by simp⟩)

end Plan

namespace Machine

variable {M : Machine} {p : Plan} {s : Scope} {values : List Datum} {shape : CallShape}
  {vectors last : Bool} {op : Opcode} {type : DataType} {imm : Immediate}
  {children : List Node} {body tail : List Op} {σ σ' : State} {pos : Position}

/-- What a method returns is in the result register for its type. -/
def Returns (σ : State) (type : DataType) : Option Datum → Prop
  | none => type = .noType
  | some d => d.fits type ∧
    (σ.registers.results (Bank.ofType type)).read 0 d.bytes.length = d.bytes

/-- What the code of a tree of a block does from a state on: what evaluating the tree does, and then
control goes where evaluation goes on. -/
inductive Leads (M : Machine) (p : Plan) (s : Scope) (values : List Datum) (σ : State)
    (pos : Position) (last : Bool) (n : Node) (body : List Op) : (tail : List Op) → Prop
  | next (nonempty : body ≠ []) (goes_on : n.endsBlock = false)
      (runs : M.Runs σ body n.treetopSites ((M.setting values).treetop pos n) fun next σ' =>
        next = .at pos.next ∧ Keeps p.frame [] (p.frame.staging 0 0) σ σ') :
      Leads M p s values σ pos last n body []
  | ret (runs : M.Runs σ body n.treetopSites ((M.setting values).treetop pos n) fun next σ' =>
        ∃ result, next = .returned result ∧ Returns σ' s.returnType result) :
      Leads M p s values σ pos last n body (if last then [] else [.transfer (.jump p.epilogue)])
  | goto {t : Nat} (target_lt : t < p.blocks)
      (runs : M.Runs σ body n.treetopSites ((M.setting values).treetop pos n) fun next σ' =>
        next = .at (.start t) ∧ Keeps p.frame [] (p.frame.staging 0 0) σ σ') :
      Leads M p s values σ pos last n body [.transfer (.jump t)]
  | branch {c : Condition} {t : Nat} (target_lt : t < p.blocks) (goes_on : n.endsBlock = false)
      (runs : M.Runs σ body n.treetopSites ((M.setting values).treetop pos n) fun next σ' =>
        Keeps p.frame [] (p.frame.staging 0 0) σ σ' ∧ ∃ a b, σ'.comparison = some (a, b) ∧
          next = .at (if c.holds a b then .start t else pos.next)) :
      Leads M p s values σ pos last n body [.transfer (.branchIf c t)]

/-- The value of a method is moved to where the caller expects it. -/
lemma runs_moveResult {depth : Nat} {d : Datum} (hdepth : depth < M.isa.pool (Bank.ofType type))
    (hd : Holds σ (Plan.slotOf type depth) type d) :
    M.Runs σ [.instr (.moveResult (Plan.slotOf type depth))] [] (pure (Progress.returned (some d)))
      fun next σ' => ∃ result, next = .returned result ∧ Returns σ' type result := by
  have hhas : M.Has (.whole (Plan.slotOf type depth).bank) (Plan.slotOf type depth) :=
    ⟨Access.bank_whole _, by simpa using hdepth⟩
  have hperform : M.perform σ (.moveResult (Plan.slotOf type depth)) =
      some (M.putResult σ (Bank.ofType type) (σ.whole (Plan.slotOf type depth))) := by
    simp only [perform, bytes?, if_pos hhas, Option.bind_eq_bind, Option.bind_some]
    rw [State.whole, bank_slotOf]
  refine .instr hperform rfl ⟨some d, rfl, hd.fits, ?_⟩
  have hlength := Datum.length_bytes_le hd.fits
  have hresult : (M.putResult σ (Bank.ofType type)
      (σ.whole (Plan.slotOf type depth))).registers.results (Bank.ofType type) =
        ((M.noise σ.clock).results (Bank.ofType type)).write 0
          (σ.whole (Plan.slotOf type depth)) := Function.update_self _ _ _
  rw [hresult, Contents.read_write_of_le (by simpa [State.whole] using hlength), State.whole,
    bank_slotOf, Contents.take_read hlength, hd.read_eq]

/-- A comparison of two words. -/
lemma perform_compare {depth : Nat} {a b : Datum} (hword : type.isWord) (c : Condition)
    (hdepth : depth + 1 < M.isa.pool .general) (ha : Holds σ (Plan.slotOf type depth) type a)
    (hb : Holds σ (Plan.slotOf type (depth + 1)) type b) :
    ∃ x y, M.perform σ (.compare type.isWide depth (depth + 1)) =
        some { σ.tick with comparison := some (x, y) } ∧ a.compare? c b = some (c.holds x y) := by
  obtain ⟨x, y, hx, hy, hcompare⟩ := Datum.exists_compare? hword ha.fits hb.fits c
  obtain ⟨hno, h8, h16, hbank⟩ := DataType.isWord_ne hword
  have hhas : M.Has (.ofType type) (Plan.slotOf type depth) :=
    has_slotOf hno (by rw [hbank]; omega)
  have hhas' : M.Has (.ofType type) (Plan.slotOf type (depth + 1)) :=
    has_slotOf hno (by rwa [hbank])
  refine ⟨x, y, ?_, hcompare⟩
  simp only [perform, Access.ofWide_isWide hword, ← DataType.slotOf_isWord hword,
    value?_eq hhas ha ⟨h8, h16⟩, value?_eq hhas' hb ⟨h8, h16⟩]
  simp [hx, hy]

lemma ne_nil_of_evaluated {held : List Reg} {level depth : Nat}
    (h : p.Evaluated held level depth op type imm children body) : body ≠ [] := by
  cases h with
  | rol _ _ hown =>
    rintro heq
    obtain rfl := (List.append_eq_nil_iff.mp heq).2
    unfold Plan.rotateLeft at hown
    split at hown
    · simpa using Lowering.yields_instr_iff.mp hown
    · simp [Lowering.yields_bind_iff, Lowering.yields_instr_iff] at hown
  | vector _ _ _ hown =>
    rintro heq
    obtain rfl := (List.append_eq_nil_iff.mp heq).2
    unfold Plan.combineVectors at hown
    split at hown
    · simpa using Lowering.yields_instr_iff.mp hown
    · simp [Plan.scalarize, Lowering.yields_bind_iff, Lowering.yields_instr_iff] at hown
  | call => simp [Plan.callOps]
  | _ => simp

lemma treetop_eq_value {s : Setting}
    (hop : op ≠ .call ∧ op ≠ .ret ∧ op ≠ .goto ∧ op ≠ .storeIndirect ∧ ∀ c, op ≠ .ifcmp c) :
    s.treetop pos (.node op type imm children) =
      s.eval (.node op type imm children) >>= fun _ => pure (.at pos.next) := by
  cases op <;> first | rfl | simp at hop

lemma treetopSites_of_ne (hop : op ≠ .call) :
    (Node.node op type imm children).treetopSites = Node.callSitesOf children ++ [] := by
  simp [Node.treetopSites, Node.op, Node.callSites, hop]

section Leads

variable {ops : List Op} {a b : Reg} (hisa : M.isa = p.cpu.isa)
  (hframe : p.frame.Fits s.params.length p.cpu.isa.deepest shape vectors)
  (htyped : ∀ c ∈ children, c.WellTyped s)

include hisa hframe htyped

lemma leads_store (haccepts : Opcode.storeIndirect.Accepts type (children.map Node.type))
    (hfits : imm.Fits s .storeIndirect type)
    (hwithin : (Node.node .storeIndirect type imm children).Within shape vectors 0)
    (hready : Ready p.frame s.params values σ)
    (hyields : (p.evalPair [] 0 0 children).Yields ops (a, b)) :
    Leads M p s values σ pos last (.node .storeIndirect type imm children)
      (ops ++ [.instr (.store (.ofType type) b (.reg a.index) (Plan.accessOffset imm))]) [] := by
  obtain ⟨o, rfl⟩ := hfits
  obtain ⟨rfl, rfl, hpool, hdepth, hstraight, hrun⟩ := runs_two hisa hframe haccepts.2 htyped
    (fun c hc => preserves_of_wellTyped hisa hframe (htyped c hc))
    (fun c hc => hwithin.of_mem (by simp) hc) .nil hready hyields
  refine .next (by simp) rfl ?_
  rw [treetopSites_of_ne (by simp)]
  refine .bind hstraight hrun fun (a, b) σ₁ ⟨hkeeps, ha, hb⟩ => ?_
  dsimp only
  rw [← bind_assoc]
  exact .map (R := fun _ σ' => Keeps p.frame [] (p.frame.staging 0 0) σ₁ σ')
    (runs_storeIndirect haccepts.1 hdepth hpool ha hb) fun _ σ₂ hkeeps' =>
      ⟨rfl, hkeeps.trans hkeeps'⟩

lemma leads_ret (haccepts : Opcode.ret.Accepts type (children.map Node.type))
    (hreturns : type = s.returnType) (hne : children ≠ [])
    (hwithin : (Node.node .ret type imm children).Within shape vectors 0)
    (hready : Ready p.frame s.params values σ)
    (hyields : (p.evalFirst [] 0 0 children).Yields ops a) :
    Leads M p s values σ pos last (.node .ret type imm children)
      (ops ++ [.instr (.moveResult a)])
      (if last then [] else [.transfer (.jump p.epilogue)]) := by
  have htypes : children.map Node.type = [type] := by
    rcases haccepts with ⟨-, hnone⟩ | ⟨-, htypes⟩
    · exact (hne (by simpa using hnone)).elim
    · exact htypes
  obtain ⟨rfl, hdepth, hstraight, hrun⟩ := runs_one hisa htypes htyped
    (fun c hc => preserves_of_wellTyped hisa hframe (htyped c hc))
    (fun c hc => hwithin.of_mem (by simp) hc) .nil hready hyields
  have htreetop : (M.setting values).treetop pos (.node .ret type imm children) =
      (M.setting values).evalFirst children >>= fun d => pure (.returned (some d)) := by
    have hempty : children.isEmpty = false := by simpa using hne
    simp [Setting.treetop, Node.op, Node.children, hempty]
  refine .ret ?_
  rw [treetopSites_of_ne (by simp), htreetop]
  refine .bind hstraight hrun fun d σ₁ hholds => ?_
  obtain ⟨hkeeps, hd⟩ := hholds
  rw [← hreturns]
  exact runs_moveResult hdepth hd

lemma leads_branch {c : Condition} {t : Nat}
    (haccepts : (Opcode.ifcmp c).Accepts type (children.map Node.type))
    (himm : imm = .target t) (hlt : t < p.blocks)
    (hwithin : (Node.node (.ifcmp c) type imm children).Within shape vectors 0)
    (hready : Ready p.frame s.params values σ)
    (hyields : (p.evalPair [] 0 0 children).Yields ops (a, b)) :
    Leads M p s values σ pos last (.node (.ifcmp c) type imm children)
      (ops ++ [.instr (.compare type.isWide a.index b.index)]) [.transfer (.branchIf c t)] := by
  obtain ⟨hword, htypes⟩ := haccepts
  obtain ⟨rfl, rfl, -, hdepth, hstraight, hrun⟩ := runs_two hisa hframe htypes htyped
    (fun c hc => preserves_of_wellTyped hisa hframe (htyped c hc))
    (fun c hc => hwithin.of_mem (by simp) hc) .nil hready hyields
  have hbank := (DataType.isWord_ne hword).2.2.2
  refine .branch hlt rfl ?_
  rw [treetopSites_of_ne (by simp)]
  refine .bind hstraight hrun fun (a, b) σ₁ ⟨hkeeps, ha, hb⟩ => ?_
  obtain ⟨x, y, hcompare, hholds⟩ := perform_compare hword c (hbank ▸ hdepth) ha hb
  have hkeeps' : Keeps p.frame [] (p.frame.staging 0 0) σ₁
      { σ₁.tick with comparison := some (x, y) } := ⟨rfl, by simp, fun _ _ => rfl⟩
  have hnext : (Immediate.branch? imm) = some (.at (.start t)) := by rw [himm, Immediate.branch?]
  simp only [index_slotOf, hholds, Evaluation.ofOption_some_bind, Node.imm, hnext]
  refine .instr (a := Progress.at (if c.holds x y then .start t else pos.next)) hcompare ?_
    ⟨hkeeps.trans hkeeps', x, y, rfl, rfl⟩
  cases c.holds x y <;> rfl

lemma leads_call {target : UInt64} {arguments : List Argument} {result : Option Reg}
    (haccepts : Opcode.call.Accepts type (children.map Node.type))
    (hbegun : p.Begun type imm (children.map Node.type) 0 target arguments result)
    (hwithin : (Node.node .call type imm children).Within shape vectors 0)
    (hready : Ready p.frame s.params values σ)
    (hyields : (p.evalArguments [] 0 0 0 children).Yields ops ()) :
    Leads M p s values σ pos last (.node .call type imm children)
      (ops ++ p.callOps [] 0 ⟨target, arguments.zip (children.map Node.type), result⟩) [] := by
  obtain ⟨hlevel, hwidth⟩ := hwithin.room_of_call
  have hstraight := Plan.sited_of_evalArguments
    (fun c hc {_ _ _ _ _} h => Plan.sited_of_eval (htyped c hc) h) hyields
  have hnone : Staged p.frame 0 [] [] σ := ⟨rfl, by simp⟩
  have harguments := runs_evalArguments hisa hframe hlevel (by simpa using hwidth) htyped
    (fun c hc => preserves_of_wellTyped hisa hframe (htyped c hc))
    (fun c hc => hwithin.of_mem_call hc) (by simpa using haccepts.2) .nil hready hnone hyields
  have hresult (r : Reg) (hr : result = some r) : r.index < M.isa.pool r.bank := by
    rw [hbegun.result_eq] at hr
    split at hr
    · simp at hr
    · rename_i htype
      obtain rfl := Option.some.inj hr
      simpa [hisa] using hbegun.depth_lt htype
  have htreetop : (M.setting values).treetop pos (.node .call type imm children) =
      (M.setting values).evalArguments children >>= fun ds =>
        (M.setting values).call target ds >>= fun _ => pure (.at pos.next) := by
    simp [Setting.treetop, Node.op, Node.imm, Node.children, hbegun.target_eq, Setting.evalCall]
  refine .next (by simp [Plan.callOps]) rfl ?_
  rw [Node.treetopSites, Node.op, if_pos rfl, htreetop]
  refine .bind hstraight.straight harguments fun ds σ₁ hpassed => ?_
  obtain ⟨hkeeps, hstaged⟩ := hpassed
  exact .map (R := fun _ σ' => Keeps p.frame [] (p.frame.staging 0 0) σ₁ σ')
    (runs_call_unused hisa hframe (hkeeps.size_eq.trans hready.size_eq) hlevel
      (by simpa using hwidth) hresult hbegun.assigned hstaged values) fun _ σ₂ hkeeps' =>
        ⟨rfl, hkeeps.trans hkeeps'⟩

end Leads

/-- **The code of a tree of a block leads where evaluating the tree leads.** -/
theorem leads_of_placed (hisa : M.isa = p.cpu.isa)
    (hframe : p.frame.Fits s.params.length p.cpu.isa.deepest shape vectors)
    (h : p.Placed last op type imm children body tail)
    (hn : (Node.node op type imm children).WellTyped s)
    (hwithin : (Node.node op type imm children).Within shape vectors 0)
    (hready : Ready p.frame s.params values σ) :
    Leads M p s values σ pos last (.node op type imm children) body tail := by
  have hroot : Preserves M p s values shape vectors (.node op type imm children) :=
    preserves_of_wellTyped hisa hframe hn
  cases hn with
  | node accepts fits returns _ operands =>
    cases h with
    | store hop hoperands =>
      subst hop
      exact leads_store hisa hframe operands accepts fits hwithin hready hoperands
    | leave hop hnone =>
      subst hop hnone
      have htype : type = .noType := by simpa [Opcode.Accepts] using accepts
      exact .ret (.pure ⟨none, rfl, (returns rfl).symm.trans htype⟩)
    | ret hop hne hoperand =>
      subst hop
      exact leads_ret hisa hframe operands accepts (returns rfl) hne hwithin hready hoperand
    | goto hop himm hlt =>
      subst hop himm
      obtain rfl : children = [] := by simpa using accepts.2
      exact .goto hlt (.pure ⟨rfl, .refl σ⟩)
    | branch hop himm hlt hoperands =>
      subst hop
      exact leads_branch hisa hframe operands accepts himm hlt hwithin hready hoperands
    | call hop hbegun hoperands =>
      subst hop
      exact leads_call hisa hframe operands accepts hbegun hwithin hready hoperands
    | value hop hvalue =>
      have hnonempty := ne_nil_of_evaluated (Plan.evaluated_of_eval hvalue).2.2
      have hgoes_on : (Node.node op type imm children).endsBlock = false := by
        cases op <;> first | rfl | simp at hop
      refine .next hnonempty hgoes_on ?_
      rw [treetop_eq_value hop, Node.treetopSites, Node.op, if_neg hop.1]
      exact (hroot _ _ _ _ _ _ hvalue hwithin .nil hready).map fun _ _ h => ⟨rfl, h.1⟩

end Machine

end TreeCode
