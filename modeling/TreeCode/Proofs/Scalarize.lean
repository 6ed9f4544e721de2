import Mathlib.Tactic.Common
import TreeCode.Proofs.LaneValues
import TreeCode.Proofs.Operations

/-!
# Lane-wise operations

A lane-wise operation is one instruction, or it is taken apart: both vectors are stored in the
buffers of the frame, and the lanes of the left one are replaced one after the other.  When `k`
lanes are done, the left buffer begins with `k` lanes of the combination and goes on with the lanes
that it had.
-/

namespace TreeCode

/-- A lane is worked on in the registers of the bank for its type. -/
lemma Lane.slotOf_worked (l : Lane) (depth : Nat) :
    Plan.slotOf (DataType.ofLane l) depth = Plan.slotOf l.worked depth := by
  cases l <;> rfl

lemma Lane.ofType_ofLane (l : Lane) : Access.ofType (DataType.ofLane l) = Access.ofLane l := by
  cases l <;> rfl

lemma Lane.bytes_ofLane (l : Lane) : (Access.ofLane l).bytes = l.bytes := by
  cases l <;> rfl

namespace Machine

variable {M : Machine} {p : Plan} {held : List Reg} {limit depth slots params : Nat}
  {shape : CallShape} {σ σ₀ : State} {l : Lane} {op : VectorOp} {own : List Op}
  {xs ys zs : List UInt8}

/-- The instruction that combines a lane of each vector. -/
inductive Combines (op : VectorOp) (l : Lane) (depth : Nat) : Instr → Prop
  | float (isFloat : l.isFloat) :
      Combines op l depth (.floatOp (.ofVector op) (l == .f64) depth (depth + 1))
  | int {iop : IntOp} (isInt : l.isFloat = false) (op_eq : IntOp.ofVector? op = some iop) :
      Combines op l depth (.intOp iop (DataType.ofLane l).isWide depth (depth + 1))

lemma combines_of_lane {offset : Nat}
    (h : (p.lane op l (Plan.slotOf (DataType.ofLane l) depth)
      (Plan.slotOf (DataType.ofLane l) (depth + 1)) offset).Yields own ()) :
    ∃ i, Combines op l depth i ∧ own =
      [.instr (.load (.ofLane l) (Plan.slotOf l.worked depth) .frame
          (frameOffset (p.frame.scratch 0 + offset))),
        .instr (.load (.ofLane l) (Plan.slotOf l.worked (depth + 1)) .frame
          (frameOffset (p.frame.scratch 1 + offset))),
        .instr i,
        .instr (.store (.ofLane l) (Plan.slotOf l.worked depth) .frame
          (frameOffset (p.frame.scratch 0 + offset)))] := by
  simp only [Plan.lane, Lowering.yields_bind_iff, Lowering.yields_instr_iff, index_slotOf,
    Lane.slotOf_worked] at h
  obtain ⟨_, _, _, rfl, ⟨_, _, _, rfl, h, rfl⟩, rfl⟩ := h
  split at h
  · rename_i hl
    simp only [Lowering.yields_bind_iff, Lowering.yields_instr_iff] at h
    obtain ⟨_, _, _, rfl, rfl, rfl⟩ := h
    exact ⟨_, .float hl, rfl⟩
  · rename_i hl
    split at h
    · rename_i iop hiop
      simp only [Lowering.yields_bind_iff, Lowering.yields_instr_iff] at h
      obtain ⟨_, _, _, rfl, rfl, rfl⟩ := h
      exact ⟨_, .int (by simpa using hl) hiop, rfl⟩
    · obtain ⟨_, _, _, h, -, -⟩ := Lowering.yields_bind_iff.mp h
      exact (Lowering.not_yields_fail h).elim

/-- The values of two lanes and of their combination, and the instruction that finds it. -/
lemma perform_of_combines {i : Instr} {bs bs' : List UInt8} {z : Nat} (hi : Combines op l depth i)
    (hdepth : depth + 1 < M.isa.pool (Bank.ofType (DataType.ofLane l)))
    (hbs : bs.length = l.bytes) (hbs' : bs'.length = l.bytes)
    (hz : op.onLane? M.unit l (ofLittleEndian bs) (ofLittleEndian bs') = some z) :
    ∃ x y, ∃ d : Datum, (Access.ofLane l).decode? bs = some x ∧
      (Access.ofLane l).decode? bs' = some y ∧ d.bytes.take l.bytes = littleEndian l.bytes z ∧
      ∀ σ, Holds σ (Plan.slotOf l.worked depth) l.worked x →
        Holds σ (Plan.slotOf l.worked (depth + 1)) l.worked y →
        M.perform σ i = some (M.put σ (Plan.slotOf l.worked depth) d.bytes) := by
  cases hi with
  | float hl =>
    obtain ⟨x, y, d, hx, hy, hd, hlow⟩ := Lane.exists_onData?_float hl hbs hbs' hz
    refine ⟨x, y, d, hx, hy, hlow, fun σ hx hy => ?_⟩
    have hfloating : l.worked.isFloating := by cases l <;> simp_all [Lane.isFloat] <;> rfl
    have hdouble : (l == .f64) = (l.worked == .double) := by cases l <;> rfl
    have hbank : Bank.ofType (DataType.ofLane l) = .vector := by
      cases l <;> simp_all [Lane.isFloat] <;> rfl
    rw [hdouble]
    exact perform_floatOp hfloating (hbank ▸ hdepth) hx hy hd
  | int hl hiop =>
    obtain ⟨x, y, d, hx, hy, hd, hlow⟩ := Lane.exists_onData?_int hl hiop hbs hbs' hz
    refine ⟨x, y, d, hx, hy, hlow, fun σ hx hy => ?_⟩
    have hword : l.worked.isWord := by cases l <;> simp_all [Lane.isFloat] <;> rfl
    have hwide : (DataType.ofLane l).isWide = l.worked.isWide := by cases l <;> rfl
    have hbank : Bank.ofType (DataType.ofLane l) = .general := by
      cases l <;> simp_all [Lane.isFloat] <;> rfl
    rw [hwide]
    exact perform_intOp hword (.inl rfl) (hbank ▸ hdepth) hx hy hd

lemma straight_of_lane {offset : Nat} (h : (p.lane op l (Plan.slotOf (DataType.ofLane l) depth)
    (Plan.slotOf (DataType.ofLane l) (depth + 1)) offset).Yields own ()) : Straight own [] := by
  obtain ⟨i, hi, rfl⟩ := combines_of_lane h
  refine Straight.instrs ?_
  cases hi <;> simp

lemma has_lane {k : Nat} (hk : k < M.isa.pool (Bank.ofType (DataType.ofLane l))) :
    M.Has (.ofLane l) (Plan.slotOf l.worked k) := by
  rw [← Lane.slotOf_worked, ← Lane.ofType_ofLane]
  exact has_slotOf (by cases l <;> decide) hk

/-- The operations of a lane replace the lane in the left buffer. -/
lemma exec_lane (hframe : p.frame.Fits params slots shape true)
    (hsize : σ.frameSize = p.frame.size) (hlimit : limit ≤ p.frame.scratchBase)
    (hpending : Pending M.isa held depth)
    (hdepth : depth + 1 < M.isa.pool (Bank.ofType (DataType.ofLane l))) {offset z : Nat}
    (hoffset : offset + l.bytes ≤ vectorBytes)
    (hown : (p.lane op l (Plan.slotOf (DataType.ofLane l) depth)
      (Plan.slotOf (DataType.ofLane l) (depth + 1)) offset).Yields own ())
    (hz : op.onLane? M.unit l
      (ofLittleEndian (σ.frame.read (p.frame.scratch 0 + offset) l.bytes))
      (ofLittleEndian (σ.frame.read (p.frame.scratch 1 + offset) l.bytes)) = some z) :
    ∃ σ', M.exec own [] σ = some σ' ∧ σ'.world = σ.world ∧ Keeps p.frame held limit σ σ' ∧
      σ'.frame = σ.frame.write (p.frame.scratch 0 + offset) (littleEndian l.bytes z) := by
  obtain ⟨i, hi, rfl⟩ := combines_of_lane hown
  obtain ⟨x, y, d, hx, hy, hlow, hperform⟩ :=
    perform_of_combines hi hdepth Contents.length_read Contents.length_read hz
  have hscratch := hframe.scratch_le rfl
  have hroom : p.frame.scratch 0 + offset + l.bytes ≤ p.frame.size ∧
      p.frame.scratch 1 + offset + l.bytes ≤ p.frame.size := by
    simp only [Frame.scratch]
    omega
  have hsmall := hframe.size_lt
  rw [← hsize] at hroom hsmall
  rw [← l.bytes_ofLane] at hroom hx hy
  have hhas : M.Has (.ofLane l) (Plan.slotOf l.worked depth) := has_lane (by omega)
  have hlhs : Plan.slotOf l.worked depth ∉ held := hpending.slotOf_notMem
  have hrhs : Plan.slotOf l.worked (depth + 1) ∉ held := by
    intro hmem
    have hlt := hpending.index_lt _ hmem
    rw [index_slotOf] at hlt
    omega
  have hne : Plan.slotOf l.worked depth ≠ Plan.slotOf l.worked (depth + 1) := by
    intro heq
    have hindex := congrArg Reg.index heq
    simp at hindex
  -- The states after each of the instructions.
  set σ₁ := M.put σ (Plan.slotOf l.worked depth) x.bytes with hσ₁
  set σ₂ := M.put σ₁ (Plan.slotOf l.worked (depth + 1)) y.bytes with hσ₂
  set σ₃ := M.put σ₂ (Plan.slotOf l.worked depth) d.bytes with hσ₃
  have h₁ : M.perform σ (.load (.ofLane l) (Plan.slotOf l.worked depth) .frame
      (frameOffset (p.frame.scratch 0 + offset))) = some σ₁ :=
    perform_load_frame hhas hroom.1 hsmall hx
  have h₂ : M.perform σ₁ (.load (.ofLane l) (Plan.slotOf l.worked (depth + 1)) .frame
      (frameOffset (p.frame.scratch 1 + offset))) = some σ₂ :=
    perform_load_frame (has_lane hdepth) hroom.2 hsmall hy
  have hholds : Holds σ₂ (Plan.slotOf l.worked depth) l.worked x := by
    have hfirst : Holds σ₁ (Plan.slotOf l.worked depth) l.worked x :=
      holds_put (bank_slotOf _ _) (l.fits_worked_of_decode? hx)
    refine hfirst.of_whole ?_
    rw [State.whole, put_pool_of_ne hne, State.whole]
  have h₃ : M.perform σ₂ i = some σ₃ :=
    hperform σ₂ hholds (holds_put (bank_slotOf _ _) (l.fits_worked_of_decode? hy))
  have h₄ : M.perform σ₃ (.store (.ofLane l) (Plan.slotOf l.worked depth) .frame
      (frameOffset (p.frame.scratch 0 + offset))) =
      some (σ₃.store (p.frame.scratch 0 + offset) (littleEndian l.bytes z)) := by
    have hlength : l.bytes ≤ d.bytes.length := by
      have htake := congrArg List.length hlow
      rw [List.length_take, length_littleEndian] at htake
      omega
    have hstore : M.perform σ₃ (.store (.ofLane l) (Plan.slotOf l.worked depth) .frame
        (frameOffset (p.frame.scratch 0 + offset))) = some (σ₃.store (p.frame.scratch 0 + offset)
          ((σ₃.registers.pool (Plan.slotOf l.worked depth)).read 0 (Access.ofLane l).bytes)) :=
      perform_store_frame hhas hroom.1 hsmall
    rw [hstore, hσ₃, put_pool_self, l.bytes_ofLane, ← Contents.take_read hlength,
      Contents.read_write, hlow]
  refine ⟨σ₃.store (p.frame.scratch 0 + offset) (littleEndian l.bytes z), ?_, rfl, ?_, rfl⟩
  · simp [exec, h₁, h₂, h₃, h₄]
  refine (keeps_put hlhs).trans ((keeps_put hrhs).trans ((keeps_put hlhs).trans
    (keeps_store fun k hk => .inl ?_)))
  have hspill := hframe.spillBase_le_scratch
  simp only [Frame.scratch]
  rcases hk with hk | hk <;> omega

/-- When `k` lanes are done. -/
structure LanesDone (p : Plan) (held : List Reg) (limit : Nat) (l : Lane) (xs ys zs : List UInt8)
    (σ₀ : State) (k : Nat) (σ : State) : Prop where
  keeps : Keeps p.frame held limit σ₀ σ
  world_eq : σ.world = σ₀.world
  done_eq : σ.frame.read (p.frame.scratch 0) (k * l.bytes) = zs.take (k * l.bytes)
  left_eq : σ.frame.read (p.frame.scratch 0 + k * l.bytes) (vectorBytes - k * l.bytes) =
    xs.drop (k * l.bytes)
  right_eq : σ.frame.read (p.frame.scratch 1) vectorBytes = ys

/-- One lane more. -/
lemma LanesDone.step {k : Nat} (h : LanesDone p held limit l xs ys zs σ₀ k σ) (hk : k < l.count)
    (hframe : p.frame.Fits params slots shape true) (hsize : σ₀.frameSize = p.frame.size)
    (hlimit : limit ≤ p.frame.scratchBase) (hpending : Pending M.isa held depth)
    (hdepth : depth + 1 < M.isa.pool (Bank.ofType (DataType.ofLane l)))
    (hzs : ∃ z, op.onLane? M.unit l (ofLittleEndian (l.chunk k xs))
      (ofLittleEndian (l.chunk k ys)) = some z ∧ l.chunk k zs = littleEndian l.bytes z)
    (hown : (p.lane op l (Plan.slotOf (DataType.ofLane l) depth)
      (Plan.slotOf (DataType.ofLane l) (depth + 1)) (k * l.bytes)).Yields own ()) :
    ∃ σ', M.exec own [] σ = some σ' ∧ LanesDone p held limit l xs ys zs σ₀ (k + 1) σ' := by
  obtain ⟨z, hz, hchunk⟩ := hzs
  have hroom : k * l.bytes + l.bytes ≤ vectorBytes := by
    rw [← Nat.succ_mul, ← l.count_mul_bytes]
    exact Nat.mul_le_mul_right _ hk
  have hbuffers : p.frame.scratch 1 = p.frame.scratch 0 + vectorBytes := by
    simp [Frame.scratch]
  have hleft : σ.frame.read (p.frame.scratch 0 + k * l.bytes) l.bytes = l.chunk k xs := by
    rw [Lane.chunk, ← h.left_eq, Contents.take_read (by omega)]
  have hright : σ.frame.read (p.frame.scratch 1 + k * l.bytes) l.bytes = l.chunk k ys := by
    rw [Lane.chunk, ← h.right_eq, Contents.drop_read, Contents.take_read (by omega)]
  rw [← hleft, ← hright] at hz
  obtain ⟨σ', hexec, hworld, hkeeps, hframe'⟩ := exec_lane hframe (h.keeps.size_eq.trans hsize)
    hlimit hpending hdepth hroom hown hz
  refine ⟨σ', hexec, h.keeps.trans hkeeps, hworld.trans h.world_eq, ?_, ?_, ?_⟩
  · rw [Nat.succ_mul, Contents.read_add, List.take_add, hframe',
      Contents.read_write_of_disjoint (by simp), Contents.read_write_of_length (by simp), h.done_eq]
    exact congrArg _ hchunk.symm
  · have hrest : vectorBytes - (k + 1) * l.bytes = vectorBytes - k * l.bytes - l.bytes := by
      rw [Nat.succ_mul]
      omega
    rw [hframe', Contents.read_write_of_disjoint (by simp [Nat.succ_mul]; omega), hrest,
      Nat.succ_mul, ← Nat.add_assoc, ← Contents.drop_read, h.left_eq, List.drop_drop]
  · rw [hframe', Contents.read_write_of_disjoint (by simp; omega), h.right_eq]

/-- The lanes from `k` on. -/
lemma LanesDone.loop {n k : Nat} (h : LanesDone p held limit l xs ys zs σ₀ k σ)
    (hn : k + n = l.count) (hframe : p.frame.Fits params slots shape true)
    (hsize : σ₀.frameSize = p.frame.size)
    (hlimit : limit ≤ p.frame.scratchBase) (hpending : Pending M.isa held depth)
    (hdepth : depth + 1 < M.isa.pool (Bank.ofType (DataType.ofLane l)))
    (hzs : ∀ i < l.count, ∃ z, op.onLane? M.unit l (ofLittleEndian (l.chunk i xs))
      (ofLittleEndian (l.chunk i ys)) = some z ∧ l.chunk i zs = littleEndian l.bytes z)
    (hown : ((List.range' k n).forM fun i => p.lane op l (Plan.slotOf (DataType.ofLane l) depth)
      (Plan.slotOf (DataType.ofLane l) (depth + 1)) (i * l.bytes)).Yields own ()) :
    Straight own [] ∧
      ∃ σ', M.exec own [] σ = some σ' ∧ LanesDone p held limit l xs ys zs σ₀ l.count σ' := by
  induction n generalizing k σ own with
  | zero =>
    obtain ⟨rfl, -⟩ := Lowering.yields_pure_iff.mp hown
    exact ⟨.nil, σ, rfl, by rwa [← hn]⟩
  | succ n ih =>
    rw [List.range'_succ] at hown
    obtain ⟨o₁, u, o₂, hlane, hrest, rfl⟩ := Lowering.yields_bind_iff.mp hown
    obtain ⟨σ', hexec, hdone⟩ := h.step (by omega) hframe hsize hlimit hpending hdepth
      (hzs k (by omega)) hlane
    obtain ⟨hstraight, σ'', hexec', hdone'⟩ := ih hdone (by omega) hrest
    have hown : Straight o₁ [] := straight_of_lane hlane
    refine ⟨hown.append hstraight, σ'', ?_, hdone'⟩
    have happend := exec_append (M := M) hown o₂ [] σ
    rwa [List.nil_append, hexec, Option.bind_some, hexec'] at happend

lemma exists_onLane? {offset : Nat} (h : (p.lane op l (Plan.slotOf (DataType.ofLane l) depth)
    (Plan.slotOf (DataType.ofLane l) (depth + 1)) offset).Yields own ()) (u : FloatUnit)
    (x y : Nat) : ∃ z, op.onLane? u l x y = some z := by
  obtain ⟨i, hi, -⟩ := combines_of_lane h
  cases hi with
  | float hl => exact ⟨_, if_pos hl⟩
  | int hl hiop => exact ⟨_, VectorOp.onLane?_int hl hiop x y⟩

/-- What the lanes of an operation that is taken apart leave, all together. -/
lemma exists_onBytes?_of_lanes (xs ys : List UInt8) (u : FloatUnit)
    (hown : ((List.range' 0 l.count).forM fun i =>
      p.lane op l (Plan.slotOf (DataType.ofLane l) depth)
        (Plan.slotOf (DataType.ofLane l) (depth + 1)) (i * l.bytes)).Yields own ()) :
    ∃ zs, op.onBytes? u l xs ys = some zs ∧ zs.length = vectorBytes ∧
      ∀ i < l.count, ∃ z, op.onLane? u l (ofLittleEndian (l.chunk i xs))
        (ofLittleEndian (l.chunk i ys)) = some z ∧ l.chunk i zs = littleEndian l.bytes z := by
  have hcount : 0 < l.count := by cases l <;> decide
  obtain ⟨n, hn⟩ : ∃ n, l.count = n + 1 := ⟨l.count - 1, by omega⟩
  rw [hn, List.range'_succ] at hown
  obtain ⟨_, _, _, hfirst, -, -⟩ := Lowering.yields_bind_iff.mp hown
  exact VectorOp.exists_onBytes? xs ys (exists_onLane? hfirst u)

/-- Both vectors are in the buffers and no lane is done. -/
lemma LanesDone.start (hframe : p.frame.Fits params slots shape true)
    (hlimit : limit ≤ p.frame.scratchBase) (hxs : xs.length = vectorBytes)
    (hys : ys.length = vectorBytes) : LanesDone p held limit l xs ys zs σ 0
      ((σ.store (p.frame.scratch 0) xs).store (p.frame.scratch 1) ys) := by
  have hlasting (n i : Nat) (hi : Lasting p.frame limit i) : i < p.frame.scratch n := by
    have hspill := hframe.spillBase_le_scratch
    simp only [Frame.scratch]
    rcases hi with hi | hi <;> omega
  refine ⟨(keeps_store fun i hi => .inl (hlasting 0 i hi)).trans
    (keeps_store fun i hi => .inl (hlasting 1 i hi)), rfl, ?_, ?_, ?_⟩
  · simp [Contents.read]
  · have hfirst : ((σ.store (p.frame.scratch 0) xs).store (p.frame.scratch 1) ys).frame.read
        (p.frame.scratch 0) vectorBytes = xs := by
      -- The right vector is stored above the left one.
      refine (Contents.read_write_of_disjoint (.inl ?_)).trans (Contents.read_write_of_length hxs)
      simp [Frame.scratch]
    simpa using hfirst
  · exact Contents.read_write_of_length hys

/-- When all lanes are done, the left buffer holds the result. -/
lemma LanesDone.read_eq (h : LanesDone p held limit l xs ys zs σ₀ l.count σ)
    (hzs : zs.length = vectorBytes) : σ.frame.read (p.frame.scratch 0) vectorBytes = zs := by
  have hall := h.done_eq
  rwa [l.count_mul_bytes, ← hzs, List.take_length, hzs] at hall

/-- A vector register is stored in the frame. -/
lemma perform_store_vector {k offset : Nat} (hk : k < M.isa.pool .vector)
    (hroom : offset + vectorBytes ≤ σ.frameSize) (hsmall : σ.frameSize < 2 ^ 31)
    (hws : xs.length = vectorBytes) (h : Holds σ (.vector k) (.vector l) (.vector xs)) :
    M.perform σ (.store .v128 (.vector k) .frame (frameOffset offset)) =
      some (σ.store offset xs) := by
  have hread : (σ.registers.pool (.vector k)).read 0 Access.v128.bytes = xs := by
    have hbytes := h.read_eq
    rwa [Datum.bytes, hws] at hbytes
  have hhas : M.Has .v128 (.vector k) := ⟨rfl, hk⟩
  rw [perform_store_frame hhas hroom hsmall, hread]

/-- An operation that is taken apart. -/
lemma runs_scalarize (hisa : M.isa = p.cpu.isa) (hframe : p.frame.Fits params slots shape true)
    (hsize : σ.frameSize = p.frame.size) (hlimit : limit ≤ p.frame.scratchBase)
    (hpending : Pending M.isa held depth) (hdepth : depth + 1 < M.isa.pool .vector)
    (hown : (p.scalarize op l depth).Yields own ())
    (hxs : xs.length = vectorBytes) (hys : ys.length = vectorBytes)
    (ha : Holds σ (.vector depth) (.vector l) (.vector xs))
    (hb : Holds σ (.vector (depth + 1)) (.vector l) (.vector ys)) :
    M.Runs σ own [] (.ofOption (op.onData? M.unit l (.vector xs) (.vector ys)))
      (Leaves p.frame held limit σ (.vector l) depth) := by
  simp only [Plan.scalarize, Lowering.yields_bind_iff, Lowering.yields_instr_iff,
    Plan.yields_register_iff] at hown
  obtain ⟨_, _, _, ⟨rfl, -⟩, ⟨_, _, _, rfl, ⟨_, _, _, rfl, ⟨_, _, _, ⟨-, rfl, rfl⟩,
    ⟨_, _, _, ⟨hrhs, rfl, rfl⟩, ⟨lanes, _, _, hlanes, rfl, rfl⟩, rfl⟩, rfl⟩, rfl⟩, rfl⟩, rfl⟩ :=
    hown
  rw [List.range_eq_range'] at hlanes
  obtain ⟨zs, hzs, hlength, hlane⟩ := exists_onBytes?_of_lanes xs ys M.unit hlanes
  have hscratch := hframe.scratch_le rfl
  have hsmall := hframe.size_lt
  rw [← hsize] at hscratch hsmall
  have hroom : p.frame.scratch 0 + vectorBytes ≤ σ.frameSize ∧
      p.frame.scratch 1 + vectorBytes ≤ σ.frameSize := by
    simp only [Frame.scratch, vectorBytes] at hscratch ⊢
    omega
  have h₁ : M.perform σ (.store .v128 (.vector depth) .frame (frameOffset (p.frame.scratch 0))) =
      some (σ.store (p.frame.scratch 0) xs) :=
    perform_store_vector (by omega) hroom.1 hsmall hxs ha
  have h₂ : M.perform (σ.store (p.frame.scratch 0) xs) (.store .v128 (.vector (depth + 1)) .frame
      (frameOffset (p.frame.scratch 1))) =
      some ((σ.store (p.frame.scratch 0) xs).store (p.frame.scratch 1) ys) :=
    perform_store_vector hdepth hroom.2 hsmall hys ⟨hb.bank_eq, hb.fits, hb.read_eq⟩
  obtain ⟨hstraight, σ₃, h₃, hdone⟩ := (LanesDone.start hframe hlimit hxs hys).loop
    (Nat.zero_add _) hframe hsize hlimit hpending (hisa ▸ hrhs) hlane hlanes
  have h₄ : M.perform σ₃ (.load .v128 (.vector depth) .frame (frameOffset (p.frame.scratch 0))) =
      some (M.put σ₃ (.vector depth) zs) := by
    refine perform_load_frame (d := .vector zs) ⟨rfl, ?_⟩ ?_ ?_ ?_
    · change depth < M.isa.pool .vector
      omega
    · rw [hdone.keeps.size_eq]
      exact hroom.1
    · rw [hdone.keeps.size_eq]
      exact hsmall
    · rw [show Access.v128.bytes = vectorBytes from rfl, hdone.read_eq hlength]
      exact if_pos hlength
  have hvalue : op.onData? M.unit l (.vector xs) (.vector ys) = some (.vector zs) := by
    rw [VectorOp.onData?, hzs, Option.map_some]
  have hfits : (Datum.vector zs).fits (.vector l) := beq_iff_eq.mpr hlength
  simp only [List.nil_append, List.cons_append]
  refine .of_instr h₁ rfl (.of_instr h₂ rfl (.of_exec hstraight h₃ hdone.world_eq ?_))
  have hload : M.Runs σ₃ [.instr (.load .v128 (.vector depth) .frame
      (frameOffset (p.frame.scratch 0)))] [] (.ofOption (op.onData? M.unit l (.vector xs)
        (.vector ys))) (Leaves p.frame held limit σ₃ (.vector l) depth) :=
    runs_put hpending hvalue hfits h₄
  exact hload.mono fun _ _ h => ⟨hdone.keeps.trans h.1, h.2⟩

/-- Two vectors are combined by one instruction or lane by lane. -/
lemma runs_combineVectors {a b : Datum} (hisa : M.isa = p.cpu.isa)
    (hframe : p.frame.Fits params slots shape true) (hsize : σ.frameSize = p.frame.size)
    (hlimit : limit ≤ p.frame.scratchBase) (hpending : Pending M.isa held depth)
    (hdepth : depth + 1 < M.isa.pool .vector)
    (hown : (p.combineVectors op l depth (depth + 1)).Yields own ())
    (ha : Holds σ (Plan.slotOf (.vector l) depth) (.vector l) a)
    (hb : Holds σ (Plan.slotOf (.vector l) (depth + 1)) (.vector l) b) :
    M.Runs σ own [] (.ofOption (op.onData? M.unit l a b))
      (Leaves p.frame held limit σ (.vector l) depth) := by
  obtain ⟨xs, rfl, hxs⟩ : ∃ xs, a = .vector xs ∧ xs.length = vectorBytes := by
    have hfits := ha.fits
    cases a <;> simp_all [Datum.fits]
  obtain ⟨ys, rfl, hys⟩ : ∃ ys, b = .vector ys ∧ ys.length = vectorBytes := by
    have hfits := hb.fits
    cases b <;> simp_all [Datum.fits]
  unfold Plan.combineVectors at hown
  split at hown
  · obtain rfl := Lowering.yields_instr_iff.mp hown
    have hhas : M.Has .v128 (.vector depth) := ⟨rfl, by change depth < M.isa.pool .vector; omega⟩
    have hhas' : M.Has .v128 (.vector (depth + 1)) := ⟨rfl, hdepth⟩
    have hx : M.value? σ .v128 (.vector depth) = some (.vector xs) :=
      value?_eq hhas ha ⟨by simp, by simp⟩
    have hy : M.value? σ .v128 (.vector (depth + 1)) = some (.vector ys) :=
      value?_eq hhas' hb ⟨by simp, by simp⟩
    cases hd : op.onData? M.unit l (.vector xs) (.vector ys) with
    | none => exact .instr_stuck (by simp [perform, hx, hy, hd]) rfl
    | some d =>
      obtain ⟨zs, hzs, rfl⟩ := Option.map_eq_some_iff.mp hd
      refine runs_put hpending rfl (beq_iff_eq.mpr (VectorOp.length_of_onBytes? hzs)) ?_
      simp [perform, hx, hy, hd, putValue?, hhas]
      rfl
  · exact runs_scalarize hisa hframe hsize hlimit hpending hdepth hown hxs hys ha hb

end Machine

end TreeCode
