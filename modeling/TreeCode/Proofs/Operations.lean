import Mathlib.Tactic.Common
import TreeCode.Proofs.Effects
import TreeCode.Proofs.Straight

/-!
# The operations of single nodes

A node whose operands stand in registers: its own operations leave its value in the register of the
left operand, and the value is the one that evaluation finds.
-/

namespace TreeCode

lemma DataType.slotOf_isWord {type : DataType} (h : type.isWord) (depth : Nat) :
    Plan.slotOf type depth = .general depth := by
  cases type <;> first | rfl | simp [isWord] at h

lemma DataType.slotOf_isFloating {type : DataType} (h : type.isFloating) (depth : Nat) :
    Plan.slotOf type depth = .vector depth := by
  cases type <;> first | rfl | simp [isFloating] at h

lemma Access.ofWide_isWide {type : DataType} (h : type.isWord) :
    ofWide type.isWide = ofType type := by
  cases type <;> first | rfl | simp [DataType.isWord] at h

lemma Access.ofDouble_eq {type : DataType} (h : type.isFloating) :
    ofDouble (type == .double) = ofType type := by
  cases type <;> first | rfl | simp [DataType.isFloating] at h

lemma DataType.isWord_ne {type : DataType} (h : type.isWord) :
    type ≠ .noType ∧ type ≠ .int8 ∧ type ≠ .int16 ∧ Bank.ofType type = .general := by
  cases type <;> simp_all [isWord, Bank.ofType, isIntegral]

lemma DataType.isFloating_ne {type : DataType} (h : type.isFloating) :
    type ≠ .noType ∧ type ≠ .int8 ∧ type ≠ .int16 ∧ Bank.ofType type = .vector := by
  cases type <;> simp_all [isFloating, Bank.ofType, isIntegral]

lemma ofLittleEndian_append (xs ys : List UInt8) :
    ofLittleEndian (xs ++ ys) = ofLittleEndian xs + 256 ^ xs.length * ofLittleEndian ys := by
  induction xs with
  | nil => simp [ofLittleEndian]
  | cons x xs ih =>
    rw [List.cons_append, ofLittleEndian, ih, ofLittleEndian, List.length_cons, Nat.pow_succ']
    simp only [Nat.mul_add, Nat.mul_assoc, Nat.add_assoc]

namespace Machine

variable {M : Machine} {f : Frame} {held : List Reg} {limit depth : Nat} {σ : State}
  {type right : DataType} {a b d : Datum}

/-- An instruction that puts a value into the register for it. -/
lemma runs_put {i : Instr} {o : Option Datum} (hpending : Pending M.isa held depth)
    (ho : o = some d) (hd : d.fits type)
    (hi : M.perform σ i = some (M.put σ (Plan.slotOf type depth) d.bytes)) :
    M.Runs σ [.instr i] [] (.ofOption o) (Leaves f held limit σ type depth) := by
  refine .instr hi (a := d) ?_ ⟨keeps_put hpending.slotOf_notMem, holds_put (bank_slotOf _ _) hd⟩
  simp only [Evaluation.ofOption_apply, ho, Option.map_some]
  rfl

/-- All of a register whose low bytes are a 32-bit number. -/
lemma value?_low {v : UInt32} (hhas : M.Has .i64 (.general depth))
    (h : Holds σ (.general depth) .int32 (.int32 v)) :
    ∃ w : UInt64, M.value? σ .i64 (.general depth) = some (.int64 w) ∧
      w.toNat % 2 ^ 32 = v.toNat := by
  refine ⟨UInt64.ofNat (ofLittleEndian
    ((σ.registers.pool (.general depth)).read 0 Access.i64.bytes)),
    by simp [value?, bytes?, hhas, Access.decode?], ?_⟩
  have hlow : (σ.registers.pool (.general depth)).read 0 4 = wordBytes v := by
    simpa [Datum.bytes] using h.read_eq
  have hbytes : Access.i64.bytes = 4 + 4 := rfl
  rw [hbytes, Contents.read_add, hlow, ofLittleEndian_append, ofLittleEndian_wordBytes,
    length_wordBytes, UInt64.toNat_ofNat']
  have hv := v.toNat_lt
  omega

/-! ## Integers -/

lemma runs_intNeg (hword : type.isWord) (hpending : Pending M.isa held depth)
    (hdepth : depth < M.isa.pool .general) (ha : Holds σ (Plan.slotOf type depth) type a) :
    M.Runs σ [.instr (.intNeg type.isWide depth)] [] (.ofOption a.negate?)
      (Leaves f held limit σ type depth) := by
  obtain ⟨d, hd, hfits⟩ := Datum.exists_negate? hword ha.fits
  obtain ⟨hno, h8, h16, hbank⟩ := DataType.isWord_ne hword
  have hhas : M.Has (.ofType type) (Plan.slotOf type depth) := has_slotOf hno (by rwa [hbank])
  refine runs_put hpending hd hfits ?_
  simp only [perform, Access.ofWide_isWide hword, ← DataType.slotOf_isWord hword,
    value?_eq hhas ha ⟨h8, h16⟩, putValue?_eq hhas]
  simp [hd]

lemma perform_intOp {op : IntOp} (hword : type.isWord) (hright : op.TakesRight type right)
    (hdepth : depth + 1 < M.isa.pool .general) (ha : Holds σ (Plan.slotOf type depth) type a)
    (hb : Holds σ (Plan.slotOf right (depth + 1)) right b) (hd : op.onData? a b = some d) :
    M.perform σ (.intOp op type.isWide depth (depth + 1)) =
      some (M.put σ (Plan.slotOf type depth) d.bytes) := by
  obtain ⟨hno, h8, h16, hbank⟩ := DataType.isWord_ne hword
  have hhas : M.Has (.ofType type) (Plan.slotOf type depth) :=
    has_slotOf hno (by rw [hbank]; omega)
  have hhas' : M.Has (.ofType type) (Plan.slotOf type (depth + 1)) :=
    has_slotOf hno (by rwa [hbank])
  -- The machine reads the right operand at the width of the left one, which for a count may be more
  -- than its type has.
  obtain ⟨b', hb', hd'⟩ : ∃ b', M.value? σ (.ofType type) (Plan.slotOf type (depth + 1)) = some b' ∧
      op.onData? a b' = some d := by
    rcases hright with rfl | ⟨rfl, hcount⟩
    · exact ⟨b, value?_eq hhas' hb ⟨h8, h16⟩, hd⟩
    · rcases Datum.cases_of_isWord ha.fits hword with ⟨rfl, a, rfl⟩ | ⟨rfl, a, rfl⟩
      · exact ⟨b, value?_eq hhas' hb ⟨h8, h16⟩, hd⟩
      · obtain ⟨b, rfl⟩ := Datum.exists_int32 hb.fits
        obtain ⟨w, hw, hlow⟩ := value?_low hhas' hb
        refine ⟨_, hw, ?_⟩
        rw [← hd, IntOp.onData?, IntOp.onData?, if_pos hcount]
        refine congrArg (fun x => some (Datum.int64 ⟨x⟩)) (IntOp.apply_eq_of_mod hcount _ ?_)
        have hwidth : b.toUInt64.toBitVec.toNat = b.toNat := by simp
        rw [hwidth, UInt64.toNat_toBitVec]
        omega
  simp only [perform, Access.ofWide_isWide hword, ← DataType.slotOf_isWord hword,
    value?_eq hhas ha ⟨h8, h16⟩, hb', putValue?_eq hhas]
  simp [hd']

lemma runs_intOp {op : IntOp} (hword : type.isWord) (hright : op.TakesRight type right)
    (hpending : Pending M.isa held depth) (hdepth : depth + 1 < M.isa.pool .general)
    (ha : Holds σ (Plan.slotOf type depth) type a)
    (hb : Holds σ (Plan.slotOf right (depth + 1)) right b) :
    M.Runs σ [.instr (.intOp op type.isWide depth (depth + 1))] [] (.ofOption (op.onData? a b))
      (Leaves f held limit σ type depth) := by
  obtain ⟨d, hd, hfits⟩ := IntOp.exists_onData? hword hright ha.fits hb.fits
  exact runs_put hpending hd hfits (perform_intOp hword hright hdepth ha hb hd)

lemma runs_rotateLeft {p : Plan} {own : List Op} (hword : type.isWord)
    (hown : (p.rotateLeft type.isWide depth (depth + 1)).Yields own ())
    (hpending : Pending M.isa held depth) (hdepth : depth + 1 < M.isa.pool .general)
    (ha : Holds σ (Plan.slotOf type depth) type a)
    (hb : Holds σ (Plan.slotOf .int32 (depth + 1)) .int32 b) :
    M.Runs σ own [] (.ofOption (IntOp.rol.onData? a b)) (Leaves f held limit σ type depth) := by
  unfold Plan.rotateLeft at hown
  split at hown
  · obtain rfl := Lowering.yields_instr_iff.mp hown
    exact runs_intOp hword (.inr ⟨rfl, rfl⟩) hpending hdepth ha hb
  · obtain ⟨_, _, _, hneg, hror, rfl⟩ := Lowering.yields_bind_iff.mp hown
    obtain rfl := Lowering.yields_instr_iff.mp hneg
    obtain rfl := Lowering.yields_instr_iff.mp hror
    obtain ⟨b, rfl⟩ := Datum.exists_int32 hb.fits
    have hhas : M.Has .i32 (.general (depth + 1)) := ⟨rfl, hdepth⟩
    have hvalue : M.value? σ .i32 (.general (depth + 1)) = some (.int32 b) :=
      value?_eq hhas hb (by decide)
    have hnotin : Reg.general (depth + 1) ∉ held := by
      intro hmem
      have hlt := hpending.index_lt _ hmem
      simp only [Reg.index] at hlt
      omega
    have hkeeps : Keeps f held limit σ (M.put σ (.general (depth + 1)) (Datum.int32 (-b)).bytes) :=
      keeps_put hnotin
    have hperform : M.perform σ (.intNeg false (depth + 1)) =
        some (M.put σ (.general (depth + 1)) (Datum.int32 (-b)).bytes) := by
      simp [perform, Access.ofWide, hvalue, Datum.negate?, putValue?, hhas]
    have ha' : Holds (M.put σ (.general (depth + 1)) (Datum.int32 (-b)).bytes)
        (Plan.slotOf type depth) type a := by
      refine ha.of_whole ?_
      rw [DataType.slotOf_isWord hword, State.whole, put_pool_of_ne (by simp), State.whole]
    refine .of_instr hperform rfl ?_
    rw [← IntOp.ror_neg hword ha.fits]
    exact (runs_intOp hword (.inr ⟨rfl, rfl⟩) hpending hdepth ha' (holds_put rfl rfl)).mono
      fun _ _ h => ⟨hkeeps.trans h.1, h.2⟩

/-! ## Floating point numbers -/

lemma perform_floatOp {op : FloatOp} (hfloating : type.isFloating)
    (hdepth : depth + 1 < M.isa.pool .vector) (ha : Holds σ (Plan.slotOf type depth) type a)
    (hb : Holds σ (Plan.slotOf type (depth + 1)) type b) (hd : M.unit.onData? op a b = some d) :
    M.perform σ (.floatOp op (type == .double) depth (depth + 1)) =
      some (M.put σ (Plan.slotOf type depth) d.bytes) := by
  obtain ⟨hno, h8, h16, hbank⟩ := DataType.isFloating_ne hfloating
  have hhas : M.Has (.ofType type) (Plan.slotOf type depth) :=
    has_slotOf hno (by rw [hbank]; omega)
  have hhas' : M.Has (.ofType type) (Plan.slotOf type (depth + 1)) :=
    has_slotOf hno (by rwa [hbank])
  simp only [perform, Access.ofDouble_eq hfloating, ← DataType.slotOf_isFloating hfloating,
    value?_eq hhas ha ⟨h8, h16⟩, value?_eq hhas' hb ⟨h8, h16⟩, putValue?_eq hhas]
  simp [hd]

lemma runs_floatOp {op : FloatOp} (hfloating : type.isFloating)
    (hpending : Pending M.isa held depth) (hdepth : depth + 1 < M.isa.pool .vector)
    (ha : Holds σ (Plan.slotOf type depth) type a)
    (hb : Holds σ (Plan.slotOf type (depth + 1)) type b) :
    M.Runs σ [.instr (.floatOp op (type == .double) depth (depth + 1))] []
      (.ofOption (M.unit.onData? op a b)) (Leaves f held limit σ type depth) := by
  obtain ⟨d, hd, hfits⟩ := FloatUnit.exists_onData? op hfloating ha.fits hb.fits
  exact runs_put hpending hd hfits (perform_floatOp hfloating hdepth ha hb hd)

lemma runs_floatSqrt (hfloating : type.isFloating) (hpending : Pending M.isa held depth)
    (hdepth : depth < M.isa.pool .vector) (ha : Holds σ (Plan.slotOf type depth) type a) :
    M.Runs σ [.instr (.floatSqrt (type == .double) depth)] [] (.ofOption (M.unit.sqrt? a))
      (Leaves f held limit σ type depth) := by
  obtain ⟨d, hd, hfits⟩ := FloatUnit.exists_sqrt? hfloating ha.fits
  obtain ⟨hno, h8, h16, hbank⟩ := DataType.isFloating_ne hfloating
  have hhas : M.Has (.ofType type) (Plan.slotOf type depth) := has_slotOf hno (by rwa [hbank])
  refine runs_put hpending hd hfits ?_
  simp only [perform, Access.ofDouble_eq hfloating, ← DataType.slotOf_isFloating hfloating,
    value?_eq hhas ha ⟨h8, h16⟩, putValue?_eq hhas]
  simp [hd]

/-! ## Leaves of trees -/

lemma runs_parameter {params : List DataType} {arguments : List Datum} {slots : Nat}
    {shape : CallShape} {vectors : Bool} {i : Nat}
    (hframe : f.Fits params.length slots shape vectors) (hready : Ready f params arguments σ)
    (hi : params[i]? = some type) (hscalar : type.isScalar) (hpending : Pending M.isa held depth)
    (hdepth : depth < M.isa.pool (Bank.ofType type)) :
    M.Runs σ [.instr (.load (.ofType type) (Plan.slotOf type depth) .frame
        (frameOffset (f.param i)))] []
      (.ofOption (arguments[i]?.bind type.passed?)) (Leaves f held limit σ type depth) := by
  have htype := (DataType.isScalar_iff.mp hscalar).1
  have hparameter := hready.parameter_eq i type hi hscalar
  have hbytes := ofType_bytes_le_slotBytes hscalar
  have hlt := (List.getElem?_eq_some_iff.mp hi).1
  have hparams := hframe.params_le
  have hsize := hframe.spillBase_le_size
  obtain ⟨d, hd⟩ := Option.isSome_iff_exists.mp (Access.decode?_isSome (Contents.length_read :
    (σ.frame.read (f.param i) (Access.ofType type).bytes).length = _))
  refine runs_put hpending (hparameter ▸ hd) (Datum.fits_of_decode? hd htype) ?_
  refine perform_load_frame (has_slotOf htype hdepth) ?_ ?_ hd
  · rw [hready.size_eq]
    simp only [Frame.param, slotBytes] at hbytes hparams ⊢
    omega
  · rw [hready.size_eq]
    exact hframe.size_lt

lemma runs_movImm {v : Int64} (hscalar : type.isScalar) (hfloating : type.isFloating = false)
    (hpending : Pending M.isa held depth) (hdepth : depth < M.isa.pool (Bank.ofType type)) :
    M.Runs σ [.instr (.movImm depth v type.isWide)] []
      (.ofOption (Setting.constant type (.int v))) (Leaves f held limit σ type depth) := by
  have hintegral : Bank.ofType type = .general := by
    cases type <;> simp_all [Bank.ofType, DataType.isScalar, DataType.isFloating,
      DataType.isIntegral]
  have hslot : Plan.slotOf type depth = .general depth := by
    rw [Plan.slotOf, hintegral, Reg.inBank]
  have hbank : (Access.ofWide type.isWide).bank = .general := by
    cases type.isWide <;> rfl
  refine runs_put hpending rfl ?_ ?_
  · cases type <;> simp_all [DataType.isScalar, DataType.isFloating, DataType.isWide, Datum.fits]
  · have hhas : M.Has (.ofWide type.isWide) (.general depth) := by
      rw [hintegral] at hdepth
      exact ⟨hbank, hdepth⟩
    simp [perform, putValue?, hhas, hslot]

lemma runs_fmovImm {bits : UInt64} (hfloating : type.isFloating)
    (hpending : Pending M.isa held depth) (hdepth : depth < M.isa.pool (Bank.ofType type)) :
    M.Runs σ [.instr (.fmovImm depth (Plan.constantBits type bits) (type = .double))] []
      (.ofOption (Setting.constant type (.float bits))) (Leaves f held limit σ type depth) := by
  refine runs_put hpending rfl ?_ ?_
  · cases type <;> simp_all [DataType.isFloating, Datum.fits]
  · have hhas : M.Has (.ofDouble (type = .double)) (.vector depth) := by
      cases type <;> first | exact ⟨rfl, hdepth⟩ | simp [DataType.isFloating] at hfloating
    rw [DataType.slotOf_isFloating hfloating]
    cases type <;> simp_all [perform, putValue?, Plan.constantBits, DataType.isFloating]

/-! ## Memory -/

lemma address?_eq {v : UInt64} (hdepth : depth < M.isa.pool .general)
    (ha : Holds σ (Plan.slotOf .address depth) .address (.int64 v)) :
    M.address? σ depth = some v := by
  have hhas : M.Has (.ofType .address) (Plan.slotOf .address depth) :=
    has_slotOf (by decide) hdepth
  have hvalue : M.value? σ .i64 (.general depth) = some (.int64 v) :=
    value?_eq hhas ha (by decide)
  rw [address?, hvalue, Option.bind_some, Datum.address?]

lemma runs_loadIndirect {o : Int32} (htype : type ≠ .noType) (hpending : Pending M.isa held depth)
    (hdepth : depth < M.isa.pool (Bank.ofType type)) (hpool : depth < M.isa.pool .general)
    (ha : Holds σ (Plan.slotOf .address depth) .address a) :
    M.Runs σ [.instr (.load (.ofType type) (Plan.slotOf type depth) (.reg depth) o)] []
      (do
        let address ← .ofOption a.address?
        Setting.loadFrom type ((Immediate.offset o).indirect address))
      (Leaves f held limit σ type depth) := by
  obtain ⟨v, rfl⟩ := Datum.exists_address? ha.fits
  have hhas := has_slotOf htype hdepth (M := M)
  have hev : (do
        let address ← .ofOption (Datum.int64 v).address?
        Setting.loadFrom type ((Immediate.offset o).indirect address) : Evaluation Datum) σ.world =
      ((σ.world.memory.read? (v + o.toInt64.toUInt64) (Access.ofType type).bytes).bind
        (Access.ofType type).decode?).map fun d => (d, σ.world) :=
    Setting.loadFrom_apply _ _ _
  have hperform : M.perform σ (.load (.ofType type) (Plan.slotOf type depth) (.reg depth) o) =
      ((σ.world.memory.read? (v + o.toInt64.toUInt64) (Access.ofType type).bytes).bind
        (Access.ofType type).decode?).map fun d => M.put σ (Plan.slotOf type depth) d.bytes := by
    simp only [perform, readAt?, address?_eq hpool ha, putValue?_eq hhas]
    simp [Option.bind_assoc, Option.map_eq_bind, Function.comp_def]
  cases hd : (σ.world.memory.read? (v + o.toInt64.toUInt64) (Access.ofType type).bytes).bind
      (Access.ofType type).decode? with
  | none =>
    rw [hd] at hev hperform
    exact .instr_stuck hperform hev
  | some d =>
    rw [hd] at hev hperform
    obtain ⟨bytes, -, hdecode⟩ := Option.bind_eq_some_iff.mp hd
    exact .instr hperform hev ⟨keeps_put hpending.slotOf_notMem,
      holds_put (bank_slotOf _ _) (Datum.fits_of_decode? hdecode htype)⟩

/-- A store to memory. -/
lemma runs_storeIndirect {o : Int32} (htype : type ≠ .noType)
    (hdepth : depth + 1 < M.isa.pool (Bank.ofType type)) (hpool : depth < M.isa.pool .general)
    (ha : Holds σ (Plan.slotOf .address depth) .address a)
    (hb : Holds σ (Plan.slotOf type (depth + 1)) type b) :
    M.Runs σ [.instr (.store (.ofType type) (Plan.slotOf type (depth + 1)) (.reg depth) o)] []
      (do
        let address ← .ofOption a.address?
        Setting.storeTo type ((Immediate.offset o).indirect address) b)
      fun _ σ' => Keeps f held limit σ σ' := by
  obtain ⟨v, rfl⟩ := Datum.exists_address? ha.fits
  have hhas := has_slotOf htype hdepth (M := M)
  have hlow := hb.read_low
  have hev : (do
        let address ← .ofOption (Datum.int64 v).address?
        Setting.storeTo type ((Immediate.offset o).indirect address) b : Evaluation Unit) σ.world =
      (σ.world.memory.write? (v + o.toInt64.toUInt64)
        ((σ.registers.pool (Plan.slotOf type (depth + 1))).read 0 (Access.ofType type).bytes)).map
        fun memory => ((), { σ.world with memory := memory }) := by
    refine (Setting.storeTo_apply _ _ _ _).trans ?_
    rw [hlow, Option.bind_some]
    rfl
  have hperform :
      M.perform σ (.store (.ofType type) (Plan.slotOf type (depth + 1)) (.reg depth) o) =
      (σ.world.memory.write? (v + o.toInt64.toUInt64)
        ((σ.registers.pool (Plan.slotOf type (depth + 1))).read 0 (Access.ofType type).bytes)).map
        fun memory => { σ.tick with world := { σ.world with memory := memory } } := by
    simp only [perform, bytes?, if_pos hhas, writeAt?, address?_eq hpool ha]
    simp [Option.map_eq_bind, Function.comp_def]
  cases hmemory : σ.world.memory.write? (v + o.toInt64.toUInt64)
      ((σ.registers.pool (Plan.slotOf type (depth + 1))).read 0 (Access.ofType type).bytes) with
  | none =>
    rw [hmemory] at hev hperform
    exact .instr_stuck hperform hev
  | some memory =>
    rw [hmemory] at hev hperform
    exact .instr hperform hev ⟨rfl, fun _ _ => rfl, fun _ _ => rfl⟩

end Machine

end TreeCode
