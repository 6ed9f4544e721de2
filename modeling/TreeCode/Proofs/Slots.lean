import TreeCode.Proofs.Held
import TreeCode.Proofs.Preservation

/-!
# Slots of the frame

The frame of a method is cut into slots: one for each parameter, one for each value that is kept
across a call, one for each argument in the row of each level of calls, and two for vectors.  They
do not overlap (`Slot.Reserved.disjoint`), and every operation that lowering produces keeps within
one of them: this holds of a tree by induction on its typing (`Plan.houses_of_wellTyped`), and from
it of a method (`Method.housed_of_lower`).
-/

namespace TreeCode

/-- A slot of a frame. -/
inductive Slot where
  | param (index : Nat)
  | spill (index : Nat)
  | staging (level arg : Nat)
  | scratch (index : Nat)
  deriving DecidableEq, Repr

namespace Slot

/-- Number of bytes of a slot. -/
def bytes : Slot → Nat
  | param _ | staging _ _ => slotBytes
  | spill _ => spillBytes
  | scratch _ => vectorBytes

/-- Where a slot begins. -/
def place (f : Frame) : Slot → Nat
  | param index => f.param index
  | spill index => f.spill index
  | staging level arg => f.staging level arg
  | scratch index => f.scratch index

/-- The slots that a frame is laid out for. -/
def Reserved (params slots : Nat) (shape : CallShape) (vectors : Bool) : Slot → Prop
  | param index => index < params
  | spill index => 0 < shape.levels ∧ index < slots
  | staging level arg => level < shape.levels ∧ arg < shape.width
  | scratch index => vectors ∧ index < 2

variable {f : Frame} {params slots : Nat} {shape : CallShape} {vectors : Bool} {slot slot' : Slot}

/-- The region of the frame that a slot is in. -/
def region (f : Frame) : Slot → Nat × Nat
  | param _ => (0, f.spillBase)
  | spill _ => (f.spillBase, f.stagingBase)
  | staging _ _ => (f.stagingBase, f.scratchBase)
  | scratch _ => (f.scratchBase, f.size)

lemma Reserved.within_region (h : slot.Reserved params slots shape vectors)
    (hf : f.Fits params slots shape vectors) :
    (slot.region f).1 ≤ slot.place f ∧ slot.place f + slot.bytes ≤ (slot.region f).2 := by
  cases slot with
  | param index =>
    have hlt : index < params := h
    have hle := hf.params_le
    simp only [region, place, bytes, Frame.param, slotBytes] at hle ⊢
    omega
  | spill index => exact ⟨Nat.le_add_right _ _, hf.spill_le h.1 h.2⟩
  | staging level arg =>
    refine ⟨Frame.stagingBase_le_staging level arg, ?_⟩
    rw [place, bytes, ← Frame.staging_succ]
    exact hf.staging_le_scratch h.1 h.2
  | scratch index =>
    obtain ⟨hvectors, hlt⟩ : vectors ∧ index < 2 := h
    have hle := hf.scratch_le hvectors
    simp only [region, place, bytes, Frame.scratch, vectorBytes] at hle ⊢
    omega

/-- A slot is within the frame. -/
lemma Reserved.le_size (h : slot.Reserved params slots shape vectors)
    (hf : f.Fits params slots shape vectors) : slot.place f + slot.bytes ≤ f.size := by
  refine Nat.le_trans (h.within_region hf).2 ?_
  have hspill := hf.spillBase_le_size
  have hscratch := hf.scratchBase_le
  have hstaging := hf.staging_le
  cases slot <;> simp only [region] <;> omega

/-- Rows and arguments in front of others. -/
lemma staging_le (hf : f.Fits params slots shape vectors) {level level' arg arg' : Nat}
    (harg : arg < shape.width) (hlt : level < level' ∨ level = level' ∧ arg < arg') :
    f.staging level arg + slotBytes ≤ f.staging level' arg' := by
  rw [← Frame.staging_succ]
  rcases hlt with hlt | ⟨rfl, hlt⟩
  · have hrow : f.staging level (arg + 1) ≤ f.staging (level + 1) 0 := hf.staging_le_next harg
    have hrows : (level + 1) * f.stagingRow ≤ level' * f.stagingRow := Nat.mul_le_mul_right _ hlt
    simp only [Frame.staging] at hrow ⊢
    omega
  · simp only [Frame.staging, slotBytes]
    omega

/-- Different slots do not overlap. -/
theorem Reserved.disjoint (h : slot.Reserved params slots shape vectors)
    (h' : slot'.Reserved params slots shape vectors) (hf : f.Fits params slots shape vectors)
    (hne : slot ≠ slot') :
    slot.place f + slot.bytes ≤ slot'.place f ∨ slot'.place f + slot'.bytes ≤ slot.place f := by
  have hregion := h.within_region hf
  have hregion' := h'.within_region hf
  have hspill := hf.spillBase_le
  have hstaging := hf.staging_le
  cases slot with
  | param i => cases slot' with
    | param i' =>
      simp only [ne_eq, param.injEq] at hne
      simp only [place, bytes, Frame.param, slotBytes]
      omega
    | _ => simp only [region] at hregion hregion'; omega
  | spill k => cases slot' with
    | spill k' =>
      simp only [ne_eq, spill.injEq] at hne
      simp only [place, bytes, Frame.spill, spillBytes]
      omega
    | _ => simp only [region] at hregion hregion'; omega
  | staging level arg => cases slot' with
    | staging level' arg' =>
      simp only [ne_eq, staging.injEq] at hne
      rcases Nat.lt_trichotomy level level' with hlt | rfl | hlt
      · exact .inl (staging_le hf h.2 (.inl hlt))
      · rcases Nat.lt_or_gt_of_ne fun heq => hne ⟨rfl, heq⟩ with hlt | hlt
        · exact .inl (staging_le hf h.2 (.inr ⟨rfl, hlt⟩))
        · exact .inr (staging_le hf h'.2 (.inr ⟨rfl, hlt⟩))
      · exact .inr (staging_le hf h'.2 (.inl hlt))
    | _ => simp only [region] at hregion hregion'; omega
  | scratch k => cases slot' with
    | scratch k' =>
      simp only [ne_eq, scratch.injEq] at hne
      simp only [place, bytes, Frame.scratch, vectorBytes]
      omega
    | _ => simp only [region] at hregion hregion'; omega

end Slot

/-! ## Accesses -/

/-- The offset and the number of bytes of an access to the frame. -/
def Instr.frameAccess? : Instr → Option (Int32 × Nat)
  | .spillArg _ access offset | .loadArg _ access offset => some (offset, access.bytes)
  | .load access _ .frame offset | .store access _ .frame offset => some (offset, access.bytes)
  | _ => none

/-- The offset and the number of bytes of an access to the frame. -/
def Op.frameAccess? : Op → Option (Int32 × Nat)
  | .instr i => i.frameAccess?
  | _ => none

/-- If an operation accesses the frame, it keeps within one of the slots that the frame is laid out
for. -/
def Op.Housed (f : Frame) (params slots : Nat) (shape : CallShape) (vectors : Bool) (o : Op) :
    Prop :=
  ∀ offset count, o.frameAccess? = some (offset, count) →
    ∃ slot : Slot, slot.Reserved params slots shape vectors ∧
      (slot.place f : Int) ≤ offset.toInt ∧ offset.toInt + count ≤ slot.place f + slot.bytes ∧
        slot.place f + slot.bytes ≤ f.size

namespace Plan

variable {p : Plan} {params slots : Nat} {shape : CallShape} {vectors : Bool}

/-- All operations keep within slots. -/
def Housed (p : Plan) (params slots : Nat) (shape : CallShape) (vectors : Bool) (ops : List Op) :
    Prop :=
  ∀ o ∈ ops, o.Housed p.frame params slots shape vectors

variable {ops own : List Op} {o : Op} {slot : Slot} {offset count : Nat}

lemma housed_of_none (h : o.frameAccess? = none) : o.Housed p.frame params slots shape vectors := by
  intro offset count haccess
  rw [h] at haccess
  cases haccess

/-- An access to a part of a slot. -/
lemma housed_of_slot (hf : p.frame.Fits params slots shape vectors)
    (hslot : slot.Reserved params slots shape vectors) (hle : offset + count ≤ slot.bytes)
    (h : o.frameAccess? = some (frameOffset (slot.place p.frame + offset), count)) :
    o.Housed p.frame params slots shape vectors := by
  intro offset' count' haccess
  obtain ⟨rfl, rfl⟩ := Prod.mk.inj (Option.some.inj (h.symm.trans haccess))
  have hsize := hslot.le_size hf
  have hlt := hf.size_lt
  have hoffset : (frameOffset (slot.place p.frame + offset)).toInt =
      (slot.place p.frame + offset : Nat) := toInt_frameOffset (by omega)
  refine ⟨slot, hslot, ?_, ?_, hsize⟩
  · rw [hoffset]
    omega
  · rw [hoffset]
    omega

/-- A value of a type fits into a slot of 8 bytes. -/
lemma slot_bytes_le (type : DataType) : 0 + (Access.slot type).bytes ≤ slotBytes := by
  rw [Nat.zero_add]
  exact Machine.slot_bytes_le type

lemma Housed.nil : p.Housed params slots shape vectors [] := by simp [Housed]

lemma Housed.append (h : p.Housed params slots shape vectors ops)
    (h' : p.Housed params slots shape vectors own) :
    p.Housed params slots shape vectors (ops ++ own) :=
  List.forall_mem_append.mpr ⟨h, h'⟩

lemma Housed.cons (h : o.Housed p.frame params slots shape vectors)
    (h' : p.Housed params slots shape vectors ops) :
    p.Housed params slots shape vectors (o :: ops) :=
  List.forall_mem_cons.mpr ⟨h, h'⟩

/-- An operation of its own that does not access the frame. -/
lemma Housed.snoc (h : p.Housed params slots shape vectors ops) (ho : o.frameAccess? = none) :
    p.Housed params slots shape vectors (ops ++ [o]) :=
  h.append (.cons (housed_of_none ho) .nil)

/-! ## Rotations, vectors and calls -/

lemma housed_rotateLeft {wide : Bool} {dst rhs : Nat}
    (h : (p.rotateLeft wide dst rhs).Yields ops ()) : p.Housed params slots shape vectors ops := by
  unfold rotateLeft at h
  split at h
  · obtain rfl := Lowering.yields_instr_iff.mp h
    exact .cons (housed_of_none rfl) .nil
  · obtain ⟨_, _, _, hneg, hror, rfl⟩ := Lowering.yields_bind_iff.mp h
    obtain rfl := Lowering.yields_instr_iff.mp hneg
    obtain rfl := Lowering.yields_instr_iff.mp hror
    exact .cons (housed_of_none rfl) (.cons (housed_of_none rfl) .nil)

variable {op : VectorOp} {l : Lane} {depth : Nat}

/-- Lanes are in the buffers. -/
lemma housed_lane (hf : p.frame.Fits params slots shape true) {i : Nat} (hi : i < l.count)
    (h : (p.lane op l (slotOf (.ofLane l) depth) (slotOf (.ofLane l) (depth + 1))
      (i * l.bytes)).Yields ops ()) :
    p.Housed params slots shape true ops := by
  obtain ⟨instr, hinstr, rfl⟩ := Machine.combines_of_lane h
  have hroom : i * l.bytes + (Access.ofLane l).bytes ≤ vectorBytes := by
    rw [l.bytes_ofLane, ← Nat.succ_mul, ← l.count_mul_bytes]
    exact Nat.mul_le_mul_right _ hi
  have hleft : (Slot.scratch 0).Reserved params slots shape true := ⟨rfl, by decide⟩
  have hright : (Slot.scratch 1).Reserved params slots shape true := ⟨rfl, by decide⟩
  have hnone : (Op.instr instr).frameAccess? = none := by cases hinstr <;> rfl
  exact .cons (housed_of_slot hf hleft hroom rfl) (.cons (housed_of_slot hf hright hroom rfl)
    (.cons (housed_of_none hnone) (.cons (housed_of_slot hf hleft hroom rfl) .nil)))

lemma housed_lanes (hf : p.frame.Fits params slots shape true) {is : List Nat}
    (his : ∀ i ∈ is, i < l.count)
    (h : (is.forM fun i => p.lane op l (slotOf (.ofLane l) depth) (slotOf (.ofLane l) (depth + 1))
      (i * l.bytes)).Yields ops ()) :
    p.Housed params slots shape true ops := by
  induction is generalizing ops with
  | nil =>
    obtain ⟨rfl, -⟩ := Lowering.yields_pure_iff.mp h
    exact .nil
  | cons i is ih =>
    obtain ⟨hi, his⟩ := List.forall_mem_cons.mp his
    obtain ⟨o₁, _, o₂, hlane, hrest, rfl⟩ := Lowering.yields_bind_iff.mp h
    exact (housed_lane hf hi hlane).append (ih his hrest)

/-- Vectors are in the buffers while they are worked on. -/
lemma housed_scalarize (hf : p.frame.Fits params slots shape true)
    (h : (p.scalarize op l depth).Yields ops ()) : p.Housed params slots shape true ops := by
  simp only [scalarize, Lowering.yields_bind_iff, Lowering.yields_instr_iff,
    yields_register_iff] at h
  obtain ⟨_, _, _, ⟨rfl, -⟩, ⟨_, _, _, rfl, ⟨_, _, _, rfl, ⟨_, _, _, ⟨-, rfl, rfl⟩,
    ⟨_, _, _, ⟨-, rfl, rfl⟩, ⟨lanes, _, _, hlanes, rfl, rfl⟩, rfl⟩, rfl⟩, rfl⟩, rfl⟩, rfl⟩ := h
  have hleft : (Slot.scratch 0).Reserved params slots shape true := ⟨rfl, by decide⟩
  have hright : (Slot.scratch 1).Reserved params slots shape true := ⟨rfl, by decide⟩
  have hwhole : 0 + Access.v128.bytes ≤ vectorBytes := by decide
  have hbuffers : p.Housed params slots shape true
      (lanes ++ [.instr (.load .v128 (.vector depth) .frame (frameOffset (p.frame.scratch 0)))]) :=
    (housed_lanes hf (by simp) hlanes).append
      (.cons (housed_of_slot hf hleft hwhole rfl) .nil)
  exact .cons (housed_of_slot hf hleft hwhole rfl)
    (.cons (housed_of_slot hf hright hwhole rfl) hbuffers)

lemma housed_combineVectors (hf : p.frame.Fits params slots shape true) {rhs : Nat}
    (h : (p.combineVectors op l depth rhs).Yields ops ()) :
    p.Housed params slots shape true ops := by
  unfold combineVectors at h
  split at h
  · obtain rfl := Lowering.yields_instr_iff.mp h
    exact .cons (housed_of_none rfl) .nil
  · exact housed_scalarize hf h

section

variable (hf : p.frame.Fits params slots shape vectors) {held : List Reg} {level : Nat}
  {arguments : List (Argument × DataType)} {result : Option Reg} {target : UInt64}

include hf

/-- Held registers are saved and restored in slots for values that are kept across a call. -/
lemma housed_save_restore (hlevel : level < shape.levels) (hheld : held.length ≤ slots) :
    p.Housed params slots shape vectors (p.saveOps held) ∧
      p.Housed params slots shape vectors (p.restoreOps held) := by
  have hreserved (r : Reg) (k : Nat) (hmem : (r, k) ∈ held.zipIdx) :
      (Slot.spill k).Reserved params slots shape vectors :=
    ⟨by omega, Nat.lt_of_lt_of_le (List.mem_zipIdx' hmem).1 hheld⟩
  have hwhole (r : Reg) : 0 + (Access.whole r.bank).bytes ≤ spillBytes := by
    cases r.bank <;> decide
  constructor
  all_goals
    intro o ho
    obtain ⟨⟨r, k⟩, hmem, rfl⟩ := List.mem_map.mp ho
    exact housed_of_slot hf (hreserved r k hmem) (hwhole r) rfl

/-- The arguments of a call are loaded from their row. -/
lemma housed_load (hlevel : level < shape.levels) (harguments : arguments.length ≤ shape.width) :
    p.Housed params slots shape vectors (p.loadOps level arguments) := by
  intro o ho
  obtain ⟨⟨⟨argument, type⟩, j⟩, hmem, rfl⟩ := List.mem_map.mp ho
  have hreserved : (Slot.staging level j).Reserved params slots shape vectors :=
    ⟨hlevel, Nat.lt_of_lt_of_le (List.mem_zipIdx' hmem).1 harguments⟩
  exact housed_of_slot hf hreserved (slot_bytes_le type) rfl

lemma housed_call (hlevel : level < shape.levels) (hheld : held.length ≤ slots)
    (harguments : arguments.length ≤ shape.width) :
    p.Housed params slots shape vectors (p.callOps held level ⟨target, arguments, result⟩) := by
  obtain ⟨hsave, hrestore⟩ := housed_save_restore hf hlevel hheld
  have htake : p.Housed params slots shape vectors (takeOps result) := by
    cases result with
    | none => exact .nil
    | some r => exact .cons (housed_of_none rfl) .nil
  exact hsave.append ((housed_load hf hlevel harguments).append
    (.cons (housed_of_none rfl) (htake.append hrestore)))

end

/-! ## Trees -/

/-- Wherever a tree is evaluated within the frame, with one register held at each depth in front,
all its operations keep within slots. -/
def Houses (p : Plan) (params : Nat) (shape : CallShape) (vectors : Bool) (n : Node) : Prop :=
  ∀ {held : List Reg} {level depth : Nat} {ops : List Op} {r : Reg},
    (p.eval held level depth n).Yields ops r → n.Within shape vectors level →
      held.length = depth → p.Housed params p.cpu.isa.deepest shape vectors ops

variable {s : Scope} {held : List Reg} {level : Nat} {op : Opcode} {type : DataType}
  {imm : Immediate} {children : List Node} {n : Node}

lemma housed_evalFirst {r : Reg} (hchildren : ∀ c ∈ children, p.Houses params shape vectors c)
    (hwithin : ∀ c ∈ children, c.Within shape vectors level) (hheld : held.length = depth)
    (h : (p.evalFirst held level depth children).Yields ops r) :
    p.Housed params p.cpu.isa.deepest shape vectors ops := by
  obtain ⟨a, rest, rfl, ha⟩ := yields_evalFirst_iff.mp h
  exact hchildren a List.mem_cons_self ha (hwithin a List.mem_cons_self) hheld

/-- While the second operand is evaluated, the register of the first one is held too. -/
lemma housed_evalPair {lhs rhs : Reg} (hchildren : ∀ c ∈ children, p.Houses params shape vectors c)
    (hwithin : ∀ c ∈ children, c.Within shape vectors level) (hheld : held.length = depth)
    (h : (p.evalPair held level depth children).Yields ops (lhs, rhs)) :
    p.Housed params p.cpu.isa.deepest shape vectors ops := by
  obtain ⟨a, b, rest, o₁, o₂, rfl, ha, hb, rfl⟩ := yields_evalPair_iff.mp h
  have hmem : b ∈ a :: b :: rest := List.mem_cons_of_mem _ List.mem_cons_self
  have hheld' : (held ++ [lhs]).length = depth + 1 := by
    rw [List.length_append, hheld, List.length_singleton]
  exact Housed.append (hchildren a List.mem_cons_self ha (hwithin a List.mem_cons_self) hheld)
    (hchildren b hmem hb (hwithin b hmem) hheld')

/-- Arguments are put into their row. -/
lemma housed_evalArguments {j : Nat} {u : Unit}
    (hf : p.frame.Fits params p.cpu.isa.deepest shape vectors) (hlevel : level < shape.levels)
    (hchildren : ∀ c ∈ children, p.Houses params shape vectors c)
    (hwithin : ∀ c ∈ children, c.Within shape vectors (level + 1)) (hheld : held.length = depth)
    (hwidth : j + children.length ≤ shape.width)
    (h : (p.evalArguments held level depth j children).Yields ops u) :
    p.Housed params p.cpu.isa.deepest shape vectors ops := by
  induction children generalizing j ops with
  | nil =>
    obtain rfl := yields_evalArguments_nil_iff.mp h
    exact .nil
  | cons n ns ih =>
    rw [List.forall_mem_cons] at hchildren hwithin
    rw [List.length_cons] at hwidth
    obtain ⟨o₁, r, o₂, hn, hns, rfl⟩ := yields_evalArguments_cons_iff.mp h
    have hreserved : (Slot.staging level j).Reserved params p.cpu.isa.deepest shape vectors :=
      ⟨hlevel, by omega⟩
    exact Housed.append (hchildren.1 hn hwithin.1 hheld)
      (.cons (housed_of_slot hf hreserved (slot_bytes_le n.type) rfl)
        (ih hchildren.2 hwithin.2 (by omega) hns))

/-- A call, with its arguments and whatever registers are held. -/
lemma housed_placedCall {target : UInt64} {arguments : List Argument} {result : Option Reg}
    {u : Unit} (hf : p.frame.Fits params p.cpu.isa.deepest shape vectors)
    (hchildren : ∀ c ∈ children, p.Houses params shape vectors c)
    (hwithin : (Node.node .call type imm children).Within shape vectors level)
    (hheld : held.length = depth) (hdepth : depth ≤ p.cpu.isa.deepest)
    (h : (p.evalArguments held level depth 0 children).Yields ops u) :
    p.Housed params p.cpu.isa.deepest shape vectors (ops ++ p.callOps held level
      ⟨target, arguments.zip (children.map Node.type), result⟩) := by
  obtain ⟨hlevel, hwidth⟩ := hwithin.room_of_call
  have harguments : (arguments.zip (children.map Node.type)).length ≤ shape.width := by
    rw [List.length_zip, List.length_map]
    exact Nat.le_trans (Nat.min_le_right _ _) hwidth
  have hwidth' : 0 + children.length ≤ shape.width := by omega
  exact (housed_evalArguments hf hlevel hchildren (fun c hc => hwithin.of_mem_call hc) hheld
    hwidth' h).append (housed_call hf hlevel (hheld ▸ hdepth) harguments)

lemma pool_le_deepest (isa : Isa) (bank : Bank) : isa.pool bank ≤ isa.deepest := by
  cases bank
  · exact Nat.le_max_left _ _
  · exact Nat.le_max_right _ _

/-- **The operations of a well-typed tree keep within slots.** -/
theorem houses_of_wellTyped
    (hf : p.frame.Fits s.params.length p.cpu.isa.deepest shape vectors) (hn : n.WellTyped s) :
    p.Houses s.params.length shape vectors n := by
  induction hn with
  | @node op type imm children accepts fits _ _ operands ih =>
    intro held level depth ops r hyields hwithin hheld
    obtain ⟨-, hdepth, hkind⟩ := evaluated_of_eval hyields
    have hchildren (hop : op ≠ .call) : ∀ c ∈ children, c.Within shape vectors level :=
      fun c hc => hwithin.of_mem hop hc
    cases hkind with
    | load hload himm =>
      subst hload himm
      obtain ⟨i, hi, hparam⟩ := fits
      obtain rfl := Immediate.parm.inj hi
      have hslot : 0 + (Access.ofType type).bytes ≤ slotBytes := by
        rw [Nat.zero_add]
        exact Machine.ofType_bytes_le_slotBytes accepts.1
      have hreserved : (Slot.param _).Reserved s.params.length p.cpu.isa.deepest shape vectors :=
        (List.getElem?_eq_some_iff.mp hparam).1
      exact .cons (housed_of_slot hf hreserved hslot rfl) .nil
    | int | float => exact .cons (housed_of_none rfl) .nil
    | loadIndirect hop hoperand | neg hop hoperand | sqrt hop hoperand =>
      exact (housed_evalFirst ih (hchildren (by simp [hop])) hheld hoperand).snoc rfl
    | rol hop hoperands hrotates =>
      exact (housed_evalPair ih (hchildren (by simp [hop])) hheld hoperands).append
        (housed_rotateLeft hrotates)
    | vector hlane hop hoperands hcombines =>
      have hcall : op ≠ .call := by
        rintro rfl
        cases hop
      -- The buffers are there because the tree itself is a vector.
      have hvectors : vectors = true := hwithin.vectors_of_type (by simp [DataType.isVector, hlane])
      subst hvectors
      exact (housed_evalPair ih (hchildren hcall) hheld hoperands).append
        (housed_combineVectors hf hcombines)
    | floating hfloating hop hoperands =>
      have hcall : op ≠ .call := by
        rintro rfl
        cases hop
      exact (housed_evalPair ih (hchildren hcall) hheld hoperands).snoc rfl
    | integer hop hscalar hoperands =>
      have hcall : op ≠ .call := by
        rintro rfl
        cases hop
      exact (housed_evalPair ih (hchildren hcall) hheld hoperands).snoc rfl
    | call hop hbegun harguments =>
      subst hop
      exact housed_placedCall hf ih hwithin hheld
        (Nat.le_trans (Nat.le_of_lt hdepth) (pool_le_deepest _ _)) harguments

/-! ## Methods -/

variable {ns : List Node} {bs : List Block}

lemma housed_treetop {last : Bool} {u : Unit}
    (hf : p.frame.Fits s.params.length p.cpu.isa.deepest shape vectors) (hn : n.WellTyped s)
    (hwithin : n.Within shape vectors 0) (h : (p.treetop last n).Yields ops u) :
    p.Housed s.params.length p.cpu.isa.deepest shape vectors ops := by
  have htree : p.Houses s.params.length shape vectors n := houses_of_wellTyped hf hn
  obtain ⟨op, type, imm, children⟩ := n
  obtain ⟨body, tail, hplaced, rfl⟩ := placed_of_treetop h
  have hoperands : ∀ c ∈ children, p.Houses s.params.length shape vectors c := by
    obtain ⟨-, -, -, -, hoperands⟩ := hn
    exact fun c hc => houses_of_wellTyped hf (hoperands c hc)
  have hchildren (hop : op ≠ .call) : ∀ c ∈ children, c.Within shape vectors 0 :=
    fun c hc => hwithin.of_mem hop hc
  have hleave (last : Bool) : p.Housed s.params.length p.cpu.isa.deepest shape vectors
      (if last then [] else [.transfer (.jump p.epilogue)]) := by
    cases last
    · exact .cons (housed_of_none rfl) .nil
    · exact .nil
  cases hplaced with
  | store hop hpair =>
    exact ((housed_evalPair hoperands (hchildren (by simp [hop])) rfl hpair).snoc rfl).append .nil
  | leave => exact hleave last
  | ret hop _ hfirst =>
    exact ((housed_evalFirst hoperands (hchildren (by simp [hop])) rfl hfirst).snoc rfl).append
      (hleave last)
  | goto => exact .cons (housed_of_none rfl) .nil
  | branch hop _ _ hpair =>
    exact ((housed_evalPair hoperands (hchildren (by simp [hop])) rfl hpair).snoc rfl).append
      (.cons (housed_of_none rfl) .nil)
  | call hop hbegun harguments =>
    subst hop
    exact (housed_placedCall hf hoperands hwithin rfl (Nat.zero_le _) harguments).append .nil
  | value _ hvalue => exact (htree hvalue hwithin rfl).append .nil

lemma housed_trees {final : Bool} {u : Unit}
    (hf : p.frame.Fits s.params.length p.cpu.isa.deepest shape vectors)
    (hns : ∀ n ∈ ns, n.WellTyped s ∧ n.Within shape vectors 0)
    (h : (p.trees final ns).Yields ops u) :
    p.Housed s.params.length p.cpu.isa.deepest shape vectors ops := by
  induction ns generalizing ops with
  | nil =>
    obtain ⟨rfl, -⟩ := Lowering.yields_pure_iff.mp h
    exact .nil
  | cons n ns ih =>
    rw [List.forall_mem_cons] at hns
    obtain ⟨o₁, o₂, h₁, h₂, rfl⟩ := yields_trees_cons_iff.mp h
    exact (housed_treetop hf hns.1.1 hns.1.2 h₁).append (ih hns.2 h₂)

lemma housed_blocksFrom {index : Nat} {u : Unit}
    (hf : p.frame.Fits s.params.length p.cpu.isa.deepest shape vectors)
    (hbs : ∀ b ∈ bs, ∀ n ∈ b.trees, n.WellTyped s ∧ n.Within shape vectors 0)
    (h : (p.blocksFrom index bs).Yields ops u) :
    p.Housed s.params.length p.cpu.isa.deepest shape vectors ops := by
  induction bs generalizing index ops with
  | nil =>
    obtain ⟨rfl, -⟩ := Lowering.yields_pure_iff.mp h
    exact .nil
  | cons b bs ih =>
    rw [List.forall_mem_cons] at hbs
    obtain ⟨o₁, o₂, h₁, h₂, rfl⟩ := yields_blocksFrom_cons_iff.mp h
    exact .cons (housed_of_none rfl) ((housed_trees hf hbs.1 h₁).append (ih hbs.2 h₂))

/-- The arguments are spilled into the slots of the parameters. -/
lemma housed_spillOps {arguments : List (Argument × DataType)}
    (hf : p.frame.Fits params slots shape vectors) (hlength : arguments.length ≤ params) :
    p.Housed params slots shape vectors (p.spillOps arguments) := by
  intro o ho
  obtain ⟨⟨⟨argument, type⟩, i⟩, hmem, rfl⟩ := List.mem_map.mp ho
  have hreserved : (Slot.param i).Reserved params slots shape vectors :=
    Nat.lt_of_lt_of_le (List.mem_zipIdx' hmem).1 hlength
  exact housed_of_slot hf hreserved (slot_bytes_le type) rfl

end Plan

namespace Method

variable {m : Method} {cpu : Cpu} {fallback : VectorFallback}

/-- The operations of a lowered method keep within the slots of its frame. -/
theorem housed_of_lower (hlower : (m.lower cpu fallback).Yields (m.lower cpu fallback).ops ())
    (htyped : m.WellTyped)
    (hf : (m.plan cpu fallback).frame.Fits m.params.length cpu.isa.deepest
      (Node.callShapes m.trees) (m.trees.any Node.hasVector)) :
    (m.plan cpu fallback).Housed m.params.length cpu.isa.deepest (Node.callShapes m.trees)
      (m.trees.any Node.hasVector) (m.lower cpu fallback).ops := by
  obtain ⟨arguments, blocks, hassign, hblocks, hops⟩ := ops_of_lower hlower
  have hlength : (arguments.zip m.params).length ≤ m.params.length := by
    rw [List.length_zip]
    exact Nat.min_le_right _ _
  have htrees : ∀ b ∈ m.blocks, ∀ n ∈ b.trees, n.WellTyped m.scope ∧
      n.Within (Node.callShapes m.trees) (m.trees.any Node.hasVector) 0 := fun b hb n hn =>
    ⟨htyped.trees_typed b hb n hn, Node.within_of_mem (List.mem_flatMap_of_mem hb hn)⟩
  have hending : (m.plan cpu fallback).Housed m.params.length cpu.isa.deepest
      (Node.callShapes m.trees) (m.trees.any Node.hasVector) (m.plan cpu fallback).ending :=
    .cons (Plan.housed_of_none rfl) (.cons (Plan.housed_of_none rfl) .nil)
  rw [hops]
  exact .cons (Plan.housed_of_none rfl) ((Plan.housed_spillOps hf hlength).append
    ((Plan.housed_blocksFrom (s := m.scope) hf htrees hblocks).append hending))

/-- **Lowering stays inside the frame.**  For a method that is read from a text and lowered without
an error, the frame is small enough for its offsets, the slots that it is laid out for lie in it and
do not overlap, and every access to the frame keeps within one of them.  If the registers that are
held and the level of calls are kept in a ledger, then the same operations come out; what is held
when a tree is evaluated has ascending depths below the depth of the tree; no call restores the
register of its result; and behind each tree of a block nothing is held and no call is around. -/
theorem lower_within_frame {text : String} (hparse : parse text = .ok m)
    (hresult : (m.lower cpu fallback).result = .ok ()) :
    let f := Frame.plan m cpu.isa.deepest
    let Reserved := Slot.Reserved m.params.length cpu.isa.deepest (Node.callShapes m.trees)
      (m.trees.any Node.hasVector)
    f.size < 2 ^ 31 ∧
    (∀ slot, Reserved slot → slot.place f + slot.bytes ≤ f.size ∧
      ∀ slot', Reserved slot' → slot ≠ slot' →
        slot.place f + slot.bytes ≤ slot'.place f ∨
          slot'.place f + slot'.bytes ≤ slot.place f) ∧
    (∀ o ∈ (m.lower cpu fallback).ops, ∀ offset count, o.frameAccess? = some (offset, count) →
      ∃ slot, Reserved slot ∧ (slot.place f : Int) ≤ offset.toInt ∧
        offset.toInt + count ≤ slot.place f + slot.bytes ∧
          slot.place f + slot.bytes ≤ f.size) ∧
    ∃ s : Ledger, m.walk cpu fallback .empty = (m.lower cpu fallback, s) ∧
      (∀ v ∈ s.visits, (v.1.map Reg.index).Pairwise (· < ·) ∧ ∀ r ∈ v.1, r.index < v.2) ∧
      (∀ c ∈ s.calls, ∀ r, c.2 = some r → r ∉ c.1) ∧
      s.ends = List.replicate m.trees.length ([], 0) ∧ s.held = [] ∧ s.level = 0 := by
  have hlower : (m.lower cpu fallback).Yields (m.lower cpu fallback).ops () := ⟨rfl, hresult⟩
  obtain ⟨e, he, hm⟩ := Except.bind_eq_ok_iff.mp hparse
  obtain ⟨htyped, hwritten⟩ := wellTyped_of_ofExpr hm (params_lt_of_lower hlower)
  have hlevels := levels_le_of_writtenBy he hwritten
  have hsize := size_plan_lt hlower htyped (Nat.le_trans hlevels (by decide))
  have hf := Frame.fits_plan m cpu.isa.deepest hsize
  obtain ⟨heq, hsound, hpost⟩ := follows_walk m cpu fallback
  obtain ⟨hheld, hlevel, hends⟩ := hpost () hresult
  exact ⟨hsize, fun slot hslot => ⟨hslot.le_size hf, fun slot' hslot' hne =>
      hslot.disjoint hslot' hf hne⟩, housed_of_lower hlower htyped hf,
    (m.walk cpu fallback .empty).2, Prod.ext heq rfl,
    fun v hv => ⟨(hsound.visits v hv).ascends, (hsound.visits v hv).below⟩, hsound.calls, hends,
    hheld, hlevel⟩

/-- While the call of the method is made, the register of its argument is held. -/
theorem lower_within_frame_sum :
    parse sumText = .ok sum ∧ (sum.lower (.baseline .aarch64) .fail).result = .ok () ∧
      ∃ s : Ledger, sum.walk (.baseline .aarch64) .fail .empty =
          (sum.lower (.baseline .aarch64) .fail, s) ∧
        s.calls = [([.general 0], some (.general 1))] ∧ s.ends = [([], 0)] := by
  have hresult : (sum.lower (.baseline .aarch64) .fail).result = .ok () := rfl
  obtain ⟨-, -, -, s, hwalk, -, -, hends, -, -⟩ := lower_within_frame parse_sumText hresult
  have hcalls : (sum.walk (.baseline .aarch64) .fail .empty).2.calls =
      [([.general 0], some (.general 1))] := rfl
  rw [hwalk] at hcalls
  exact ⟨parse_sumText, hresult, s, hwalk, hcalls, hends⟩

end Method

end TreeCode
