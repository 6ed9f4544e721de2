import Mathlib.Tactic.Common
import TreeCode.Proofs.Outcome
import TreeCode.Proofs.Values

/-!
# Lanes and scalar operations

A lane of a vector, loaded as a scalar, combined and stored again, is the lane of the combined
vectors.  Narrow lanes are combined in 32 bits, of which the low ones are those of the lane.
-/

namespace TreeCode

/-- Of a number only what the bytes hold is stored. -/
lemma littleEndian_mod (count n : Nat) :
    littleEndian count (n % 256 ^ count) = littleEndian count n := by
  induction count generalizing n with
  | zero => rfl
  | succ count ih =>
    have hdiv : n % 256 ^ (count + 1) / 256 = n / 256 % 256 ^ count := by
      rw [Nat.pow_succ', Nat.mod_mul_right_div_self]
    have hlow : UInt8.ofNat (n % 256 ^ (count + 1)) = UInt8.ofNat n := by
      refine UInt8.toNat_inj.mp ?_
      rw [UInt8.toNat_ofNat', UInt8.toNat_ofNat', Nat.pow_succ', Nat.mod_mul_right_mod]
    rw [littleEndian, littleEndian, hdiv, hlow, ih]

lemma littleEndian_congr {count n m : Nat} (h : n % 256 ^ count = m % 256 ^ count) :
    littleEndian count n = littleEndian count m := by
  rw [← littleEndian_mod count n, h, littleEndian_mod]

namespace Lane

variable {l : Lane} {xs ys zs : List UInt8} {i : Nat}

/-- The bytes of a lane of a vector. -/
def chunk (l : Lane) (i : Nat) (xs : List UInt8) : List UInt8 :=
  (xs.drop (i * l.bytes)).take l.bytes

lemma chunk_join {lanes : List Nat} (hi : i < lanes.length) :
    l.chunk i (l.join lanes) = littleEndian l.bytes lanes[i] := by
  induction lanes generalizing i with
  | nil => simp at hi
  | cons n lanes ih =>
    rw [join, List.flatMap_cons]
    cases i with
    | zero => simp [chunk]
    | succ i =>
      have hdrop : (i + 1) * l.bytes = (littleEndian l.bytes n).length + i * l.bytes := by
        rw [length_littleEndian, Nat.add_mul, Nat.add_comm, Nat.one_mul]
      rw [chunk, hdrop, List.drop_length_add_append, List.getElem_cons_succ]
      exact ih (by simpa using hi)

lemma length_join (lanes : List Nat) : (l.join lanes).length = lanes.length * l.bytes := by
  induction lanes with
  | nil => simp [join]
  | cons n lanes ih =>
    rw [join, List.flatMap_cons, List.length_append, length_littleEndian, List.length_cons,
      Nat.add_mul, Nat.one_mul, Nat.add_comm]
    exact congrArg (· + l.bytes) ih

end Lane

namespace VectorOp

variable {u : FloatUnit} {op : VectorOp} {l : Lane} {iop : IntOp}

/-- The combination of two vectors, lane by lane. -/
lemma exists_onBytes? (xs ys : List UInt8) (h : ∀ x y, ∃ z, op.onLane? u l x y = some z) :
    ∃ zs, op.onBytes? u l xs ys = some zs ∧ zs.length = vectorBytes ∧
      ∀ i < l.count, ∃ z, op.onLane? u l (ofLittleEndian (l.chunk i xs))
        (ofLittleEndian (l.chunk i ys)) = some z ∧ l.chunk i zs = littleEndian l.bytes z := by
  choose g hg using h
  have hmap : ((l.split xs).zip (l.split ys)).mapM (fun p => op.onLane? u l p.1 p.2) =
      some (((l.split xs).zip (l.split ys)).map fun p => g p.1 p.2) := by
    rw [← Option.pure_def, ← List.mapM_pure]
    exact congrArg (List.mapM · _) (funext fun p => hg p.1 p.2)
  have hlength : (((l.split xs).zip (l.split ys)).map fun p => g p.1 p.2).length = l.count := by
    simp [Lane.split]
  refine ⟨_, by rw [onBytes?, hmap, Option.map_some], ?_, fun i hi => ⟨_, hg _ _, ?_⟩⟩
  · rw [Lane.length_join, hlength, l.count_mul_bytes]
  · rw [Lane.chunk_join (by rwa [hlength])]
    simp [Lane.split, Lane.chunk]

lemma length_of_onBytes? {xs ys zs : List UInt8} (h : op.onBytes? u l xs ys = some zs) :
    zs.length = vectorBytes := by
  obtain ⟨lanes, hlanes, rfl⟩ := Option.map_eq_some_iff.mp h
  rw [Lane.length_join, ← (Option.mapM_eq_some_iff.mp hlanes).length_eq]
  simp [Lane.split, l.count_mul_bytes]

/-! ## Integers -/

lemma apply_setWidth (hiop : IntOp.ofVector? op = some iop) {v w : Nat} (h : w ≤ v)
    (x y : BitVec v) : (iop.apply x y).setWidth w = iop.apply (x.setWidth w) (y.setWidth w) := by
  cases op <;> simp [IntOp.ofVector?] at hiop <;> subst hiop
  · exact BitVec.setWidth_add x y h
  · simp only [IntOp.apply, BitVec.sub_eq_add_neg, BitVec.setWidth_add _ _ h,
      BitVec.setWidth_neg_of_le h]
  · exact BitVec.setWidth_mul x y h

lemma onLane?_int (hl : l.isFloat = false) (hiop : IntOp.ofVector? op = some iop) (x y : Nat) :
    op.onLane? u l x y =
      some (iop.apply (BitVec.ofNat (8 * l.bytes) x) (BitVec.ofNat (8 * l.bytes) y)).toNat := by
  cases op <;> simp [IntOp.ofVector?] at hiop <;> subst hiop <;> simp [onLane?, hl]

end VectorOp

/-- The type that a lane is worked on at: integers narrower than 32 bits are held in 32 bits. -/
def Lane.worked (l : Lane) : DataType :=
  match l with
  | .i8 | .i16 | .i32 => .int32
  | l => .ofLane l

namespace Lane

variable {l : Lane} {bs : List UInt8}

lemma fits_worked_of_decode? {d : Datum} (h : (Access.ofLane l).decode? bs = some d) :
    d.fits l.worked := by
  unfold Access.decode? at h
  split at h
  · obtain rfl := Option.some.inj h
    cases l <;> rfl
  · simp at h

lemma toNat_ofInt_bmod (n : Nat) {m : Nat} (hm : m = 256 ∨ m = 65536) :
    (UInt32.ofInt ((n : Int).bmod m)).toNat % m = n % m := by
  rw [UInt32.ofInt, UInt32.toNat_ofNat', Int.bmod_def]
  rcases hm with rfl | rfl <;> split <;> omega

/-- A lane that is extended with its sign has the bits of the lane at the low end. -/
lemma low_of_narrow (hl : l.worked = .int32) (hbs : bs.length = l.bytes) :
    ∃ v : UInt32, (Access.ofLane l).decode? bs = some (.int32 v) ∧
      v.toBitVec.setWidth (8 * l.bytes) = BitVec.ofNat (8 * l.bytes) (ofLittleEndian bs) := by
  cases l with
  | i8 =>
    refine ⟨_, by simp only [Access.decode?, Access.ofLane, Access.bytes, hbs, bytes]; rfl, ?_⟩
    refine BitVec.eq_of_toNat_eq ?_
    simpa [bytes] using toNat_ofInt_bmod (ofLittleEndian bs) (.inl rfl)
  | i16 =>
    refine ⟨_, by simp only [Access.decode?, Access.ofLane, Access.bytes, hbs, bytes]; rfl, ?_⟩
    refine BitVec.eq_of_toNat_eq ?_
    simpa [bytes] using toNat_ofInt_bmod (ofLittleEndian bs) (.inr rfl)
  | i32 =>
    refine ⟨_, by simp only [Access.decode?, Access.ofLane, Access.bytes, hbs, bytes]; rfl, ?_⟩
    refine BitVec.eq_of_toNat_eq ?_
    simp [bytes]
  | _ => simp [worked, DataType.ofLane] at hl

/-- A combination of integer lanes, computed at the type that they are worked on at. -/
lemma exists_onData?_int {u : FloatUnit} {op : VectorOp} {iop : IntOp} {bs' : List UInt8}
    (hl : l.isFloat = false) (hiop : IntOp.ofVector? op = some iop) (hbs : bs.length = l.bytes)
    (hbs' : bs'.length = l.bytes) {z : Nat}
    (hz : op.onLane? u l (ofLittleEndian bs) (ofLittleEndian bs') = some z) :
    ∃ x y d, (Access.ofLane l).decode? bs = some x ∧ (Access.ofLane l).decode? bs' = some y ∧
      iop.onData? x y = some d ∧ d.bytes.take l.bytes = littleEndian l.bytes z := by
  rw [VectorOp.onLane?_int hl hiop] at hz
  obtain rfl := Option.some.inj hz
  by_cases hnarrow : l.worked = .int32
  · obtain ⟨v, hv, hlow⟩ := low_of_narrow hnarrow hbs
    obtain ⟨v', hv', hlow'⟩ := low_of_narrow hnarrow hbs'
    refine ⟨_, _, _, hv, hv', rfl, ?_⟩
    have hbytes : l.bytes ≤ 4 := by cases l <;> simp_all [worked, DataType.ofLane, bytes]
    rw [← hlow, ← hlow', ← VectorOp.apply_setWidth hiop (by omega), Datum.bytes, wordBytes,
      take_littleEndian hbytes]
    refine littleEndian_congr ?_
    rw [BitVec.toNat_setWidth, Nat.pow_mul, Nat.mod_mod]
    rfl
  · obtain rfl : l = .i64 := by cases l <;> simp_all [worked, DataType.ofLane, isFloat]
    refine ⟨_, _, _, by simp only [Access.decode?, Access.ofLane, Access.bytes, hbs, bytes]; rfl,
      by simp only [Access.decode?, Access.ofLane, Access.bytes, hbs', bytes]; rfl, rfl, ?_⟩
    rw [List.take_of_length_le (by simp [Datum.bytes, bytes])]
    rfl

lemma exists_onData?_float {u : FloatUnit} {op : VectorOp} {bs' : List UInt8}
    (hl : l.isFloat) (hbs : bs.length = l.bytes) (hbs' : bs'.length = l.bytes) {z : Nat}
    (hz : op.onLane? u l (ofLittleEndian bs) (ofLittleEndian bs') = some z) :
    ∃ x y d, (Access.ofLane l).decode? bs = some x ∧ (Access.ofLane l).decode? bs' = some y ∧
      u.onData? (.ofVector op) x y = some d ∧ d.bytes.take l.bytes = littleEndian l.bytes z := by
  rw [VectorOp.onLane?, if_pos hl] at hz
  obtain rfl := Option.some.inj hz
  have hword (ws : List UInt8) (h : ws.length = 4) :
      (UInt32.ofNat (ofLittleEndian ws)).toUInt64 = UInt64.ofNat (ofLittleEndian ws) := by
    have hlt := ofLittleEndian_lt ws
    rw [h] at hlt
    refine UInt64.toNat_inj.mp ?_
    simp only [UInt32.toNat_toUInt64, UInt32.toNat_ofNat', UInt64.toNat_ofNat']
    omega
  cases l with
  | f32 =>
    refine ⟨_, _, _, by simp only [Access.decode?, Access.ofLane, Access.bytes, hbs, bytes]; rfl,
      by simp only [Access.decode?, Access.ofLane, Access.bytes, hbs', bytes]; rfl, rfl, ?_⟩
    rw [hword bs hbs, hword bs' hbs', List.take_of_length_le (by simp [Datum.bytes, bytes])]
    refine littleEndian_congr ?_
    simp
    rfl
  | f64 =>
    refine ⟨_, _, _, by simp only [Access.decode?, Access.ofLane, Access.bytes, hbs, bytes]; rfl,
      by simp only [Access.decode?, Access.ofLane, Access.bytes, hbs', bytes]; rfl, rfl, ?_⟩
    rw [List.take_of_length_le (by simp [Datum.bytes, bytes])]
    rfl
  | _ => simp [isFloat] at hl

end Lane

end TreeCode
