import Mathlib.Tactic.Common
import TreeCode.Proofs.Calls
import TreeCode.Proofs.Scalarize
import TreeCode.Proofs.Sites

/-!
# The meaning of trees is preserved

The code of a tree at a depth leaves its value in the register at this depth, changes the world as
evaluation does, and keeps what is waited for: the registers that are held, the parameters, and the
rows of arguments that calls around the tree are gathering.  The induction is on the tree.
-/

namespace TreeCode

/-! ## Evaluation of single nodes -/

namespace Setting

variable {s : Setting} {op : Opcode} {type : DataType} {imm : Immediate} {children : List Node}
  {a b : Datum}

/-- A node that combines two operands. -/
lemma eval_eq_pair (h : op.vectorOp?.isSome ∨ (IntOp.ofOpcode? op).isSome ∨ op = .rol) :
    s.eval (.node op type imm children) = (do
      let (a, b) ← s.evalPair children
      .ofOption (s.combine op type a b)) := by
  cases op <;> simp [Opcode.vectorOp?, IntOp.ofOpcode?] at h <;> rw [eval] <;> intros <;>
    contradiction

lemma combine_vector {l : Lane} {vop : VectorOp} (hlane : type.lane? = some l)
    (hop : op.vectorOp? = some vop) : s.combine op type a b = vop.onData? s.unit l a b := by
  simp [combine, hlane, hop]

lemma combine_floating {vop : VectorOp} (hfloating : type.isFloating)
    (hop : op.vectorOp? = some vop) :
    s.combine op type a b = s.unit.onData? (.ofVector vop) a b := by
  simp [combine, DataType.lane?_of_isFloating hfloating, hfloating, hop]

lemma combine_integer {iop : IntOp} (hword : type.isWord) (hop : IntOp.ofOpcode? op = some iop) :
    s.combine op type a b = iop.onData? a b := by
  have hlane := DataType.lane?_of_isWord hword
  have hfloating := DataType.isFloating_of_isWord hword
  have hrol : op ≠ .rol := by
    rintro rfl
    simp [IntOp.ofOpcode?] at hop
  simp [combine, hlane, hfloating, hrol, hop]

lemma combine_rol (hword : type.isWord) : s.combine .rol type a b = IntOp.rol.onData? a b := by
  have hlane := DataType.lane?_of_isWord hword
  have hfloating := DataType.isFloating_of_isWord hword
  simp [combine, hlane, hfloating]

end Setting

namespace Machine

variable {M : Machine} {p : Plan} {s : Scope} {values : List Datum} {shape : CallShape}
  {vectors : Bool} {held : List Reg} {level depth : Nat} {op : Opcode} {type : DataType}
  {imm : Immediate} {children : List Node} {ops : List Op} {r : Reg} {σ σ' : State}

/-- One more register is waited for. -/
lemma Pending.snoc {isa : Isa} (h : Pending isa held depth)
    (hdepth : depth < isa.pool (Bank.ofType type)) :
    Pending isa (held ++ [Plan.slotOf type depth]) (depth + 1) where
  length_eq := by simp [h.length_eq]
  index_lt r hr := by
    rcases List.mem_append.mp hr with hr | hr
    · exact Nat.lt_succ_of_lt (h.index_lt r hr)
    · obtain rfl := List.mem_singleton.mp hr
      simp
  in_pool r hr := by
    rcases List.mem_append.mp hr with hr | hr
    · exact h.in_pool r hr
    · obtain rfl := List.mem_singleton.mp hr
      simpa using hdepth

/-- What is left by code behind other code that keeps what is waited for. -/
lemma Runs.of_keeps {ev : Evaluation Datum} {sites : List CallSite} {limit : Nat} {f : Frame}
    (hkeeps : Keeps f held limit σ σ')
    (h : M.Runs σ' ops sites ev (Leaves f held limit σ' type depth)) :
    M.Runs σ' ops sites ev (Leaves f held limit σ type depth) :=
  h.mono fun _ _ ⟨hkeeps', hd⟩ => ⟨hkeeps.trans hkeeps', hd⟩

/-- Wherever it stands, the code of a tree does what evaluating the tree does. -/
def Preserves (M : Machine) (p : Plan) (s : Scope) (values : List Datum) (shape : CallShape)
    (vectors : Bool) (n : Node) : Prop :=
  ∀ (held : List Reg) (level depth : Nat) (ops : List Op) (r : Reg) (σ : State),
    (p.eval held level depth n).Yields ops r → n.Within shape vectors level →
      Pending M.isa held depth → Ready p.frame s.params values σ →
        M.Runs σ ops n.callSites ((M.setting values).eval n)
          (Leaves p.frame held (p.frame.staging level 0) σ n.type depth)

/-! ## Operands -/

/-- Two operands, the first of which is kept while the second one is evaluated. -/
lemma runs_evalPair {a b : Node} {o₁ o₂ : List Op} {r' : Reg} (hisa : M.isa = p.cpu.isa)
    (hframe : p.frame.Fits s.params.length p.cpu.isa.deepest shape vectors)
    (ha : a.WellTyped s) (hpa : Preserves M p s values shape vectors a)
    (hpb : Preserves M p s values shape vectors b)
    (hyields : (p.eval held level depth a).Yields o₁ r)
    (hyields' : (p.eval (held ++ [r]) level (depth + 1) b).Yields o₂ r')
    (hwa : a.Within shape vectors level) (hwb : b.Within shape vectors level)
    (hpending : Pending M.isa held depth) (hready : Ready p.frame s.params values σ) :
    M.Runs σ (o₁ ++ o₂) (Node.callSitesOf [a, b]) ((M.setting values).evalPair [a, b])
      fun (x, y) σ' => Keeps p.frame held (p.frame.staging level 0) σ σ' ∧
        Holds σ' (Plan.slotOf a.type depth) a.type x ∧
        Holds σ' (Plan.slotOf b.type (depth + 1)) b.type y := by
  obtain ⟨rfl, hdepth⟩ := Plan.register_of_eval hyields
  rw [← hisa] at hdepth
  have hsnoc := hpending.snoc hdepth
  have hsites : Node.callSitesOf [a, b] = a.callSites ++ b.callSites := by
    simp [Node.callSitesOf]
  rw [hsites, Setting.evalPair]
  refine .bind (Plan.sited_of_eval ha hyields).straight
    (hpa _ _ _ _ _ _ hyields hwa hpending hready) fun x σ₁ hleft => ?_
  obtain ⟨hkeeps, hx⟩ := hleft
  refine (hpb _ _ _ _ _ _ hyields' hwb hsnoc (hready.of_keeps hframe hkeeps)).map
    fun y σ₂ hright => ?_
  obtain ⟨hkeeps', hy⟩ := hright
  have hwhole : σ₂.whole (Plan.slotOf a.type depth) = σ₁.whole (Plan.slotOf a.type depth) :=
    hkeeps'.whole_eq _ (by simp)
  exact ⟨hkeeps.trans (hkeeps'.mono (by simp +contextual) (Nat.le_refl _)), hx.of_whole hwhole, hy⟩

/-- The operands of a node that has two of them. -/
lemma runs_two {t u : DataType} {lhs rhs : Reg} (hisa : M.isa = p.cpu.isa)
    (hframe : p.frame.Fits s.params.length p.cpu.isa.deepest shape vectors)
    (htypes : children.map Node.type = [t, u]) (htyped : ∀ c ∈ children, c.WellTyped s)
    (hpreserves : ∀ c ∈ children, Preserves M p s values shape vectors c)
    (hwithin : ∀ c ∈ children, c.Within shape vectors level)
    (hpending : Pending M.isa held depth) (hready : Ready p.frame s.params values σ)
    (hyields : (p.evalPair held level depth children).Yields ops (lhs, rhs)) :
    lhs = Plan.slotOf t depth ∧ rhs = Plan.slotOf u (depth + 1) ∧
      depth < M.isa.pool (Bank.ofType t) ∧ depth + 1 < M.isa.pool (Bank.ofType u) ∧
      Straight ops (Node.callSitesOf children) ∧
      M.Runs σ ops (Node.callSitesOf children) ((M.setting values).evalPair children)
        fun (x, y) σ' => Keeps p.frame held (p.frame.staging level 0) σ σ' ∧
          Holds σ' (Plan.slotOf t depth) t x ∧ Holds σ' (Plan.slotOf u (depth + 1)) u y := by
  obtain ⟨a, b, o₁, o₂, rfl, rfl, rfl, ha, hb, rfl⟩ := Plan.exists_two htypes hyields
  obtain ⟨hlhs, hdepth⟩ := Plan.register_of_eval ha
  obtain ⟨hrhs, hdepth'⟩ := Plan.register_of_eval hb
  simp only [List.forall_mem_cons] at htyped hpreserves hwithin
  have hstraight := (Plan.sited_of_eval htyped.1 ha).straight.append
    (Plan.sited_of_eval htyped.2.1 hb).straight
  refine ⟨hlhs, hrhs, hisa ▸ hdepth, hisa ▸ hdepth',
    by simpa [Node.callSitesOf] using hstraight, ?_⟩
  exact runs_evalPair hisa hframe htyped.1 hpreserves.1 hpreserves.2.1 ha hb hwithin.1 hwithin.2.1
    hpending hready

/-- The operand of a node that has one. -/
lemma runs_one {t : DataType} (hisa : M.isa = p.cpu.isa)
    (htypes : children.map Node.type = [t]) (htyped : ∀ c ∈ children, c.WellTyped s)
    (hpreserves : ∀ c ∈ children, Preserves M p s values shape vectors c)
    (hwithin : ∀ c ∈ children, c.Within shape vectors level)
    (hpending : Pending M.isa held depth) (hready : Ready p.frame s.params values σ)
    (hyields : (p.evalFirst held level depth children).Yields ops r) :
    r = Plan.slotOf t depth ∧ depth < M.isa.pool (Bank.ofType t) ∧
      Straight ops (Node.callSitesOf children) ∧
      M.Runs σ ops (Node.callSitesOf children) ((M.setting values).evalFirst children)
        (Leaves p.frame held (p.frame.staging level 0) σ t depth) := by
  obtain ⟨a, rfl, rfl, ha⟩ := Plan.exists_one htypes hyields
  obtain ⟨hr, hdepth⟩ := Plan.register_of_eval ha
  rw [List.forall_mem_singleton] at htyped hpreserves hwithin
  have hsites : Node.callSitesOf [a] = a.callSites := by simp [Node.callSitesOf]
  rw [hsites, Setting.evalFirst]
  exact ⟨hr, hisa ▸ hdepth, (Plan.sited_of_eval htyped ha).straight,
    hpreserves _ _ _ _ _ _ ha hwithin hpending hready⟩

/-! ## Arguments -/

/-- What has been gathered stays where it is. -/
lemma Staged.of_keeps {types : List DataType} {ds : List Datum} {limit : Nat}
    (h : Staged p.frame level types ds σ) (hkeeps : Keeps p.frame held limit σ σ')
    (hscalar : ∀ t ∈ types, t.isScalar) (hlimit : p.frame.staging level types.length ≤ limit) :
    Staged p.frame level types ds σ' where
  length_eq := h.length_eq
  decode_eq j type d ht hd := by
    rw [← h.decode_eq j type d ht hd]
    have hj := (List.getElem?_eq_some_iff.mp ht).1
    have hbytes := ofType_bytes_le_slotBytes (hscalar type (List.mem_of_getElem? ht))
    have hnext : p.frame.staging level (j + 1) ≤ p.frame.staging level types.length :=
      Nat.add_le_add_left (Nat.mul_le_mul_right _ hj) _
    rw [Frame.staging_succ] at hnext
    refine congrArg _ (hkeeps.read_eq fun i hi hi' => .inr ⟨?_, by omega⟩)
    exact Nat.le_trans (Frame.stagingBase_le_staging level j) hi

/-- One more argument is gathered. -/
lemma Staged.snoc {types : List DataType} {ds : List Datum} {d : Datum}
    (h : Staged p.frame level types ds σ)
    (hdecode : (Access.ofType type).decode?
      (σ.frame.read (p.frame.staging level types.length) (Access.ofType type).bytes) = some d) :
    Staged p.frame level (types ++ [type]) (ds ++ [d]) σ where
  length_eq := by simp [h.length_eq]
  decode_eq j t d' ht hd := by
    by_cases hj : j < types.length
    · rw [List.getElem?_append_left hj] at ht
      rw [List.getElem?_append_left (h.length_eq ▸ hj)] at hd
      exact h.decode_eq j t d' ht hd
    · rw [List.getElem?_append_right (by omega)] at ht
      rw [List.getElem?_append_right (by rw [h.length_eq]; omega), h.length_eq] at hd
      obtain ⟨hzero, rfl⟩ : j - types.length = 0 ∧ type = t := by
        cases hsub : j - types.length <;> simp_all
      obtain rfl : d = d' := by simpa [hzero] using hd
      obtain rfl : j = types.length := by omega
      exact hdecode

/-- A value is put into its slot as it is passed. -/
lemma perform_stage {j : Nat} {d : Datum}
    (hframe : p.frame.Fits s.params.length p.cpu.isa.deepest shape vectors)
    (hsize : σ.frameSize = p.frame.size) (hlevel : level < shape.levels) (hj : j < shape.width)
    (hscalar : type.isScalar) (hdepth : depth < M.isa.pool (Bank.ofType type))
    (hd : Holds σ (Plan.slotOf type depth) type d) :
    ∃ passed σ', type.passed? d = some passed ∧
      M.perform σ (.store (.slot type) (Plan.slotOf type depth) .frame
        (frameOffset (p.frame.staging level j))) = some σ' ∧ σ'.world = σ.world ∧
      (∀ held, Keeps p.frame held (p.frame.staging level j) σ σ') ∧
      (Access.ofType type).decode?
        (σ'.frame.read (p.frame.staging level j) (Access.ofType type).bytes) = some passed := by
  obtain ⟨passed, hpassed⟩ := Option.isSome_iff_exists.mp (Datum.passed?_isSome hd.fits)
  obtain ⟨hno, hvector⟩ := DataType.isScalar_iff.mp hscalar
  have hhas : M.Has (.slot type) (Plan.slotOf type depth) :=
    ⟨by rw [Access.bank_slot hno hvector, bank_slotOf], by simpa using hdepth⟩
  have hbytes := ofType_bytes_le_slot hscalar
  have hroom : p.frame.staging level j + (Access.slot type).bytes ≤ σ.frameSize := by
    have hnext := hframe.staging_le_scratch hlevel (Nat.succ_le_of_lt hj)
    have hslot := slot_bytes_le type
    have hscratch := hframe.scratchBase_le
    rw [Frame.staging_succ] at hnext
    omega
  refine ⟨passed, _, hpassed, perform_store_frame hhas hroom (hsize ▸ hframe.size_lt), rfl,
    fun held => keeps_store fun i hi => .inl ?_, ?_⟩
  · have hspill := hframe.spillBase_le
    have hstaging := Frame.stagingBase_le_staging (f := p.frame) level j
    rcases hi with hi | hi <;> omega
  · rw [← hpassed, Datum.passed?_eq hd.fits, ← hd.read_eq]
    refine congrArg _ ?_
    rw [Contents.take_read (Datum.ofType_bytes_le hd.fits), State.store,
      Contents.read_write_of_le (by simpa using hbytes), Contents.take_read hbytes]

/-- The arguments of a call from some point on. -/
lemma runs_evalArguments {types : List DataType} {ds : List Datum} (hisa : M.isa = p.cpu.isa)
    (hframe : p.frame.Fits s.params.length p.cpu.isa.deepest shape vectors)
    (hlevel : level < shape.levels) (hwidth : types.length + children.length ≤ shape.width)
    (htyped : ∀ c ∈ children, c.WellTyped s)
    (hpreserves : ∀ c ∈ children, Preserves M p s values shape vectors c)
    (hwithin : ∀ c ∈ children, c.Within shape vectors (level + 1))
    (hscalar : ∀ t ∈ types ++ children.map Node.type, t.isScalar)
    (hpending : Pending M.isa held depth) (hready : Ready p.frame s.params values σ)
    (hstaged : Staged p.frame level types ds σ)
    (hyields : (p.evalArguments held level depth types.length children).Yields ops ()) :
    M.Runs σ ops (Node.callSitesOf children) ((M.setting values).evalArguments children)
      fun rest σ' => Keeps p.frame held (p.frame.staging level 0) σ σ' ∧
        Staged p.frame level (types ++ children.map Node.type) (ds ++ rest) σ' := by
  induction children generalizing types ds ops σ with
  | nil =>
    rw [Plan.yields_evalArguments_nil_iff.mp hyields, Node.callSitesOf, Setting.evalArguments]
    refine .pure ?_
    exact ⟨.refl σ, by simpa using hstaged⟩
  | cons n ns ih =>
    rw [List.forall_mem_cons] at htyped hpreserves hwithin
    rw [List.length_cons] at hwidth
    obtain ⟨o₁, r, o₂, hn, hrest, rfl⟩ := Plan.yields_evalArguments_cons_iff.mp hyields
    obtain ⟨rfl, hdepth⟩ := Plan.register_of_eval hn
    rw [← hisa] at hdepth
    rw [Setting.evalArguments, Node.callSitesOf]
    refine .bind (Plan.sited_of_eval htyped.1 hn).straight
      (hpreserves.1 _ _ _ _ _ _ hn hwithin.1 hpending hready) fun d σ₁ hholds => ?_
    obtain ⟨hkeeps, hd⟩ := hholds
    have hsize₁ : σ₁.frameSize = p.frame.size := hkeeps.size_eq.trans hready.size_eq
    obtain ⟨passed, σ₂, hpassed, hstore, hworld, hkeeps₂, hdecode⟩ :=
      perform_stage (j := types.length) hframe hsize₁ hlevel (by omega) (hscalar n.type (by simp))
        hdepth hd
    have hrow : p.frame.staging level types.length ≤ p.frame.staging (level + 1) 0 :=
      hframe.staging_le_next (by omega)
    have hstart : p.frame.staging level 0 ≤ p.frame.staging level types.length :=
      Nat.add_le_add_left (by simp) _
    have hkeep : Keeps p.frame held (p.frame.staging level types.length) σ σ₂ :=
      (hkeeps.mono (by simp) hrow).trans (hkeeps₂ held)
    have hstaged₂ : Staged p.frame level (types ++ [n.type]) (ds ++ [passed]) σ₂ :=
      (hstaged.of_keeps hkeep (fun t ht => hscalar t (by simp [ht])) (Nat.le_refl _)).snoc hdecode
    have hlength : types.length + 1 = (types ++ [n.type]).length := by simp
    rw [hlength] at hrest
    have hnext := ih (by rw [← hlength]; omega) htyped.2 hpreserves.2 hwithin.2
      (by simpa using hscalar) (hready.of_keeps hframe hkeep) hstaged₂ hrest
    refine .of_instr hstore hworld ?_
    rw [hpassed, Evaluation.ofOption_some_bind]
    refine hnext.map fun rest σ₃ hrest => ?_
    obtain ⟨hkeeps₃, hstaged₃⟩ := hrest
    exact ⟨(hkeep.mono (fun _ h => h) hstart).trans hkeeps₃, by simpa using hstaged₃⟩

/-! ## Trees -/

/-- A tree that is a call. -/
lemma preserves_call (hisa : M.isa = p.cpu.isa)
    (hframe : p.frame.Fits s.params.length p.cpu.isa.deepest shape vectors)
    (haccepts : Opcode.call.Accepts type (children.map Node.type))
    (htyped : ∀ c ∈ children, c.WellTyped s)
    (hpreserves : ∀ c ∈ children, Preserves M p s values shape vectors c) :
    Preserves M p s values shape vectors (.node .call type imm children) := by
  intro held level depth ops r σ hyields hwithin hpending hready
  obtain ⟨-, hdepth, hkind⟩ := Plan.evaluated_of_eval hyields
  rw [← hisa] at hdepth
  cases hkind with
  | @call before target arguments _ hbegun hoperands =>
    obtain rfl := hbegun.target_eq
    obtain ⟨hlevel, hwidth⟩ := hwithin.room_of_call
    have hstraight := Plan.sited_of_evalArguments
      (fun c hc {_ _ _ _ _} h => Plan.sited_of_eval (htyped c hc) h) hoperands
    have hnone : Staged p.frame level [] [] σ := ⟨rfl, by simp⟩
    have harguments := runs_evalArguments hisa hframe hlevel (by simpa using hwidth) htyped
      hpreserves (fun c hc => hwithin.of_mem_call hc) (by simpa using haccepts.2) hpending hready
      hnone hoperands
    rw [Node.callSites, if_pos rfl, Setting.eval, Setting.evalCall, bind_assoc]
    refine .bind hstraight.straight harguments fun ds σ₁ ⟨hkeeps, hstaged⟩ => ?_
    exact .of_keeps hkeeps (runs_call hisa hframe (hkeeps.size_eq.trans hready.size_eq) hlevel
      (by simpa using hwidth) hpending hdepth hbegun.assigned hstaged values)
  | _ => simp_all [Opcode.vectorOp?, IntOp.ofOpcode?]

/-- A node that combines two operands, from what its own operations do. -/
lemma runs_combined {t u : DataType} {own : List Op} {sites : List CallSite} {limit : Nat}
    (heval : op.vectorOp?.isSome ∨ (IntOp.ofOpcode? op).isSome ∨ op = .rol)
    (hstraight : Straight ops sites)
    (hrun : M.Runs σ ops sites ((M.setting values).evalPair children)
      fun (x, y) σ' => Keeps p.frame held limit σ σ' ∧ Holds σ' (Plan.slotOf t depth) t x ∧
        Holds σ' (Plan.slotOf u (depth + 1)) u y)
    (hown : ∀ a b σ₁, Keeps p.frame held limit σ σ₁ → Holds σ₁ (Plan.slotOf t depth) t a →
      Holds σ₁ (Plan.slotOf u (depth + 1)) u b →
        M.Runs σ₁ own [] (.ofOption ((M.setting values).combine op type a b))
          (Leaves p.frame held limit σ₁ type depth)) :
    M.Runs σ (ops ++ own) (sites ++ []) ((M.setting values).eval (.node op type imm children))
      (Leaves p.frame held limit σ type depth) := by
  rw [Setting.eval_eq_pair heval]
  refine .bind hstraight hrun fun (a, b) σ₁ ⟨hkeeps, ha, hb⟩ => ?_
  exact .of_keeps hkeeps (hown a b σ₁ hkeeps ha hb)

/-- A tree that is no call. -/
lemma preserves_of_ne_call (hisa : M.isa = p.cpu.isa)
    (hframe : p.frame.Fits s.params.length p.cpu.isa.deepest shape vectors)
    (hop : op ≠ .call) (haccepts : op.Accepts type (children.map Node.type))
    (hfits : imm.Fits s op type) (htyped : ∀ c ∈ children, c.WellTyped s)
    (hpreserves : ∀ c ∈ children, Preserves M p s values shape vectors c) :
    Preserves M p s values shape vectors (.node op type imm children) := by
  intro held level depth ops r σ hyields hwithin hpending hready
  obtain ⟨-, hdepth, hkind⟩ := Plan.evaluated_of_eval hyields
  rw [← hisa] at hdepth
  have hchildren : ∀ c ∈ children, c.Within shape vectors level := fun c hc => hwithin.of_mem hop hc
  rw [Node.callSites, if_neg hop]
  -- Operands come first; what they leave is there for the operations of the node itself.
  have hone {t : DataType} {o : List Op} {r : Reg} (htypes : children.map Node.type = [t])
      (h : (p.evalFirst held level depth children).Yields o r) :=
    runs_one hisa htypes htyped hpreserves hchildren hpending hready h
  have htwo {t u : DataType} {o : List Op} {lhs rhs : Reg}
      (htypes : children.map Node.type = [t, u])
      (h : (p.evalPair held level depth children).Yields o (lhs, rhs)) :=
    runs_two hisa hframe htypes htyped hpreserves hchildren hpending hready h
  cases hkind with
  | load hload himm =>
    subst hload himm
    obtain ⟨hscalar, htypes⟩ := haccepts
    obtain rfl : children = [] := by simpa using htypes
    obtain ⟨i, hi, hparam⟩ := hfits
    obtain rfl := Immediate.parm.inj hi
    rw [Setting.eval]
    exact runs_parameter hframe hready hparam hscalar hpending hdepth
  | int hconst himm =>
    subst hconst himm
    obtain ⟨hscalar, htypes⟩ := haccepts
    obtain rfl : children = [] := by simpa using htypes
    have hfloating : type.isFloating = false := by
      simp only [Immediate.Fits, reduceCtorEq, exists_false, and_false, false_or] at hfits
      exact hfits.1
    rw [Setting.eval]
    exact runs_movImm hscalar hfloating hpending hdepth
  | float hconst himm =>
    subst hconst himm
    obtain ⟨hscalar, htypes⟩ := haccepts
    obtain rfl : children = [] := by simpa using htypes
    have hfloating : type.isFloating := by simpa [Immediate.Fits] using hfits
    rw [Setting.eval]
    exact runs_fmovImm hfloating hpending hdepth
  | loadIndirect hload haddress =>
    subst hload
    obtain ⟨htype, htypes⟩ := haccepts
    obtain ⟨o, rfl⟩ := hfits
    obtain ⟨rfl, hpool, hstraight, hrun⟩ := hone htypes haddress
    rw [Setting.eval]
    refine .bind hstraight hrun fun a σ₁ ⟨hkeeps, ha⟩ => ?_
    exact .of_keeps hkeeps (runs_loadIndirect htype hpending hdepth hpool ha)
  | neg hneg hoperand =>
    subst hneg
    obtain ⟨hword, htypes⟩ := haccepts
    obtain ⟨rfl, hpool, hstraight, hrun⟩ := hone htypes hoperand
    rw [Setting.eval]
    refine .bind hstraight hrun fun a σ₁ ⟨hkeeps, ha⟩ => ?_
    have hbank := (DataType.isWord_ne hword).2.2.2
    exact .of_keeps hkeeps (runs_intNeg hword hpending (hbank ▸ hdepth) ha)
  | sqrt hsqrt hoperand =>
    subst hsqrt
    obtain ⟨hfloating, htypes⟩ := haccepts
    obtain ⟨rfl, hpool, hstraight, hrun⟩ := hone htypes hoperand
    rw [Setting.eval]
    refine .bind hstraight hrun fun a σ₁ ⟨hkeeps, ha⟩ => ?_
    have hbank := (DataType.isFloating_ne hfloating).2.2.2
    exact .of_keeps hkeeps (runs_floatSqrt hfloating hpending (hbank ▸ hdepth) ha)
  | rol hrol hoperands hrotates =>
    subst hrol
    obtain ⟨hword, htypes⟩ := haccepts
    obtain ⟨rfl, rfl, -, hpool, hstraight, hrun⟩ := htwo htypes hoperands
    rw [index_slotOf] at hrotates
    refine runs_combined (.inr (.inr rfl)) hstraight hrun fun a b σ₁ _ ha hb => ?_
    rw [Setting.combine_rol hword]
    exact runs_rotateLeft hword hrotates hpending hpool ha hb
  | vector hlane hvop hoperands hcombines =>
    rename_i l vop
    obtain rfl : type = .vector l := by cases type <;> simp_all [DataType.lane?]
    obtain ⟨rfl, rfl, -, hpool, hstraight, hrun⟩ := htwo (haccepts.of_vectorOp? hvop) hoperands
    rw [index_slotOf] at hcombines
    have hframe' : p.frame.Fits s.params.length p.cpu.isa.deepest shape true :=
      hwithin.vectors_of_type rfl ▸ hframe
    have hlimit : p.frame.staging level 0 ≤ p.frame.scratchBase :=
      hframe.staging_zero_le (Nat.le_trans (Nat.le_add_right _ _) hwithin.levels_le)
    refine runs_combined (.inl (by simp [hvop])) hstraight hrun fun a b σ₁ hkeeps ha hb => ?_
    rw [Setting.combine_vector rfl hvop]
    exact runs_combineVectors hisa hframe' (hkeeps.size_eq.trans hready.size_eq) hlimit hpending
      hpool hcombines ha hb
  | floating hfloating hvop hoperands =>
    obtain ⟨rfl, rfl, -, hpool, hstraight, hrun⟩ := htwo (haccepts.of_vectorOp? hvop) hoperands
    have hbank := (DataType.isFloating_ne hfloating).2.2.2
    refine runs_combined (.inl (by simp [hvop])) hstraight hrun fun a b σ₁ _ ha hb => ?_
    rw [Setting.combine_floating hfloating hvop, index_slotOf]
    exact runs_floatOp hfloating hpending (hbank ▸ hpool) ha hb
  | integer hiop hscalar hoperands =>
    obtain ⟨hword, right, htypes, hright⟩ := haccepts.of_ofOpcode? hiop hscalar
    obtain ⟨rfl, rfl, -, hpool, hstraight, hrun⟩ := htwo htypes hoperands
    have hbank : Bank.ofType right = .general := by
      rcases hright with rfl | ⟨rfl, -⟩
      · exact (DataType.isWord_ne hword).2.2.2
      · rfl
    refine runs_combined (.inr (.inl (by simp [hiop]))) hstraight hrun fun a b σ₁ _ ha hb => ?_
    rw [Setting.combine_integer hword hiop, index_slotOf]
    exact runs_intOp hword hright hpending (hbank ▸ hpool) ha hb
  | call hcall => exact (hop hcall).elim

/-- **The code of a well-typed tree does what evaluating the tree does.** -/
theorem preserves_of_wellTyped {n : Node} (hisa : M.isa = p.cpu.isa)
    (hframe : p.frame.Fits s.params.length p.cpu.isa.deepest shape vectors) (hn : n.WellTyped s) :
    Preserves M p s values shape vectors n := by
  induction hn with
  | @node op type imm children accepts fits _ _ operands ih =>
    by_cases hop : op = .call
    · subst hop
      exact preserves_call hisa hframe accepts operands ih
    · exact preserves_of_ne_call hisa hframe hop accepts fits operands ih

end Machine

end TreeCode
