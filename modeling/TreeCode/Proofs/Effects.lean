import Mathlib.Tactic.Common
import TreeCode.Proofs.Layout
import TreeCode.Proofs.Values
import TreeCode.Proofs.Yields

/-!
# What instructions do and what they keep

While a tree is evaluated, the values that are waited for stay where they are: whole registers, the
slots of the parameters, and the arguments that calls around the tree have gathered.  `Keeps` says
so of any piece of code, and `Holds` says that a register holds a value of a type.
-/

namespace TreeCode

namespace Machine

/-- All bytes of a register of a pool. -/
def State.whole (σ : State) (r : Reg) : List UInt8 :=
  (σ.registers.pool r).read 0 (Access.whole r.bank).bytes

/-- A register holds a value of a type. -/
structure Holds (σ : State) (r : Reg) (type : DataType) (d : Datum) : Prop where
  bank_eq : r.bank = Bank.ofType type
  fits : d.fits type
  read_eq : (σ.registers.pool r).read 0 d.bytes.length = d.bytes

/-- A place of the frame that outlives the evaluation of a tree: one of a parameter, or one of a
row of arguments in front of a limit. -/
def Lasting (f : Frame) (limit i : Nat) : Prop := i < f.spillBase ∨ f.stagingBase ≤ i ∧ i < limit

/-- What is waited for is kept. -/
structure Keeps (f : Frame) (held : List Reg) (limit : Nat) (σ σ' : State) : Prop where
  size_eq : σ'.frameSize = σ.frameSize
  whole_eq : ∀ r ∈ held, σ'.whole r = σ.whole r
  frame_eq : ∀ i, Lasting f limit i → σ'.frame i = σ.frame i

/-- What evaluating a tree leaves: its value in the register for its type at the depth. -/
def Leaves (f : Frame) (held : List Reg) (limit : Nat) (σ : State) (type : DataType) (depth : Nat)
    (d : Datum) (σ' : State) : Prop :=
  Keeps f held limit σ σ' ∧ Holds σ' (Plan.slotOf type depth) type d

/-- Registers with values that are waited for: one at each depth so far. -/
structure Pending (isa : Isa) (held : List Reg) (depth : Nat) : Prop where
  length_eq : held.length = depth
  index_lt : ∀ r ∈ held, r.index < depth
  in_pool : ∀ r ∈ held, r.index < isa.pool r.bank

/-- The frame has been made, and the values of the parameters are in their slots. -/
structure Ready (f : Frame) (params : List DataType) (arguments : List Datum) (σ : State) :
    Prop where
  size_eq : σ.frameSize = f.size
  parameter_eq : ∀ (i : Nat) type, params[i]? = some type → type.isScalar →
    (Access.ofType type).decode? (σ.frame.read (f.param i) (Access.ofType type).bytes) =
      arguments[i]?.bind type.passed?

variable {M : Machine} {f : Frame} {held held' : List Reg} {limit limit' : Nat}
  {σ σ' σ'' : State} {r : Reg} {type : DataType} {d : Datum} {bytes : List UInt8} {depth : Nat}

namespace Keeps

lemma refl (σ : State) : Keeps f held limit σ σ := ⟨rfl, fun _ _ => rfl, fun _ _ => rfl⟩

lemma trans (h : Keeps f held limit σ σ') (h' : Keeps f held limit σ' σ'') :
    Keeps f held limit σ σ'' where
  size_eq := h'.size_eq.trans h.size_eq
  whole_eq r hr := (h'.whole_eq r hr).trans (h.whole_eq r hr)
  frame_eq i hi := (h'.frame_eq i hi).trans (h.frame_eq i hi)

lemma mono (h : Keeps f held limit σ σ') (hheld : ∀ r ∈ held', r ∈ held)
    (hlimit : limit' ≤ limit) : Keeps f held' limit' σ σ' where
  size_eq := h.size_eq
  whole_eq r hr := h.whole_eq r (hheld r hr)
  frame_eq i hi := h.frame_eq i (hi.imp_right fun hi => ⟨hi.1, by omega⟩)

lemma read_eq (h : Keeps f held limit σ σ') {place count : Nat}
    (hplace : ∀ i, place ≤ i → i < place + count → Lasting f limit i) :
    σ'.frame.read place count = σ.frame.read place count :=
  Contents.read_congr fun i hi => h.frame_eq _ (hplace _ (by omega) (by omega))

end Keeps

lemma ofType_bytes_le_slotBytes (h : type.isScalar) : (Access.ofType type).bytes ≤ slotBytes := by
  cases type <;> simp_all [DataType.isScalar, Access.ofType, Access.bytes, slotBytes]

/-- The slots of the parameters are kept. -/
lemma Ready.of_keeps {params : List DataType} {arguments : List Datum} {slots : Nat}
    {shape : CallShape} {vectors : Bool} (hframe : f.Fits params.length slots shape vectors)
    (h : Ready f params arguments σ) (hkeeps : Keeps f held limit σ σ') :
    Ready f params arguments σ' where
  size_eq := hkeeps.size_eq.trans h.size_eq
  parameter_eq i type hi hscalar := by
    have hlt := (List.getElem?_eq_some_iff.mp hi).1
    have hbytes := ofType_bytes_le_slotBytes hscalar
    have hparams := hframe.params_le
    rw [hkeeps.read_eq, h.parameter_eq i type hi hscalar]
    intro k _ hk
    simp only [Frame.param, slotBytes] at hk hparams hbytes
    exact Or.inl (by omega)

namespace Pending

variable {isa : Isa}

lemma nil : Pending isa [] 0 := ⟨rfl, by simp, by simp⟩

lemma slotOf_notMem (h : Pending isa held depth) : Plan.slotOf type depth ∉ held := by
  intro hmem
  have hindex := h.index_lt _ hmem
  cases hbank : Bank.ofType type <;> simp [Plan.slotOf, hbank, Reg.inBank, Reg.index] at hindex

end Pending

namespace Holds

/-- A value stays where it is if the whole register does. -/
lemma of_whole (h : Holds σ r type d) (hwhole : σ'.whole r = σ.whole r) : Holds σ' r type d where
  bank_eq := h.bank_eq
  fits := h.fits
  read_eq := by
    have hlength := Datum.length_bytes_le h.fits
    rw [← h.bank_eq] at hlength
    rw [Contents.read_congr_of_le hwhole hlength, h.read_eq]

/-- The low bytes of the register are the bytes that are stored of the value. -/
lemma read_low (h : Holds σ r type d) :
    (Access.ofType type).encode? d =
      some ((σ.registers.pool r).read 0 (Access.ofType type).bytes) := by
  rw [Datum.encode?_eq h.fits, ← h.read_eq, Contents.take_read (Datum.ofType_bytes_le h.fits)]

end Holds

/-! ## Registers -/

@[simp] lemma bank_slotOf (type : DataType) (depth : Nat) :
    (Plan.slotOf type depth).bank = Bank.ofType type := by
  cases h : Bank.ofType type <;> simp [Plan.slotOf, h, Reg.inBank, Reg.bank]

@[simp] lemma index_slotOf (type : DataType) (depth : Nat) :
    (Plan.slotOf type depth).index = depth := by
  cases h : Bank.ofType type <;> simp [Plan.slotOf, h, Reg.inBank, Reg.index]

lemma has_slotOf (htype : type ≠ .noType) (hdepth : depth < M.isa.pool (Bank.ofType type)) :
    M.Has (.ofType type) (Plan.slotOf type depth) :=
  ⟨by rw [Access.bank_ofType htype, bank_slotOf], by simpa using hdepth⟩

lemma put_pool_self : (M.put σ r bytes).registers.pool r =
    ((M.noise σ.clock).pool r).write 0 bytes := Function.update_self _ _ _

lemma put_pool_of_ne {r' : Reg} (h : r' ≠ r) :
    (M.put σ r bytes).registers.pool r' = σ.registers.pool r' := Function.update_of_ne h _ _

lemma keeps_put (h : r ∉ held) : Keeps f held limit σ (M.put σ r bytes) where
  size_eq := rfl
  whole_eq r' hr' := by
    have hne : r' ≠ r := fun heq => h (heq ▸ hr')
    rw [State.whole, put_pool_of_ne hne, State.whole]
  frame_eq _ _ := rfl

lemma holds_put (hbank : r.bank = Bank.ofType type) (h : d.fits type) :
    Holds (M.put σ r d.bytes) r type d :=
  ⟨hbank, h, by rw [put_pool_self, Contents.read_write]⟩

/-- The value of a register, if it is no narrow integer. -/
lemma value?_eq (hhas : M.Has (.ofType type) r) (h : Holds σ r type d)
    (hnarrow : type ≠ .int8 ∧ type ≠ .int16) : M.value? σ (.ofType type) r = some d := by
  obtain ⟨hlength, hdecode⟩ := Datum.decode?_bytes h.fits hnarrow
  rw [value?, bytes?, if_pos hhas, Option.bind_some, ← hlength, h.read_eq, hdecode]

lemma putValue?_eq (hhas : M.Has (.ofType type) r) :
    M.putValue? σ (.ofType type) r d = some (M.put σ r d.bytes) := if_pos hhas

/-! ## The frame -/

lemma place?_frameOffset {n count : Nat} (h : n + count ≤ σ.frameSize)
    (hsize : σ.frameSize < 2 ^ 31) : σ.place? (frameOffset n) count = some n := by
  have hn : (frameOffset n).toInt = n := toInt_frameOffset (by omega)
  have hplace : 0 ≤ (n : Int) ∧ (n : Int).toNat + count ≤ σ.frameSize := by omega
  rw [State.place?, hn, if_pos hplace, Int.toNat_natCast]

variable {access : Access} {n : Nat}

lemma perform_store_frame (hhas : M.Has access r) (h : n + access.bytes ≤ σ.frameSize)
    (hsize : σ.frameSize < 2 ^ 31) :
    M.perform σ (.store access r .frame (frameOffset n)) =
      some (σ.store n ((σ.registers.pool r).read 0 access.bytes)) := by
  simp [perform, bytes?, hhas, writeAt?, place?_frameOffset h hsize]

lemma perform_load_frame (hhas : M.Has access r) (h : n + access.bytes ≤ σ.frameSize)
    (hsize : σ.frameSize < 2 ^ 31)
    (hdecode : access.decode? (σ.frame.read n access.bytes) = some d) :
    M.perform σ (.load access r .frame (frameOffset n)) = some (M.put σ r d.bytes) := by
  simp [perform, readAt?, place?_frameOffset h hsize, hdecode, putValue?, hhas]

lemma keeps_store (h : ∀ i, Lasting f limit i → i < n ∨ n + bytes.length ≤ i) :
    Keeps f held limit σ (σ.store n bytes) where
  size_eq := rfl
  whole_eq _ _ := rfl
  frame_eq i hi := by
    rcases h i hi with hi | hi
    · exact Contents.write_of_lt hi
    · exact Contents.write_of_ge hi

end Machine

end TreeCode
