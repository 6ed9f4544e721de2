import Mathlib.Tactic.Common
import TreeCode.Proofs.Machine
import TreeCode.Proofs.Patching
import TreeCode.Proofs.WellTyped

/-!
# Values and their bytes

A value in a register stands for what the trees of a type make of it: it is stored in memory and
passed to calls by its low bytes, and read back from all of them.
-/

namespace TreeCode

lemma take_littleEndian {m n : Nat} (h : m ≤ n) (v : Nat) :
    (littleEndian n v).take m = littleEndian m v := by
  induction m generalizing n v with
  | zero => rfl
  | succ m ih =>
    cases n with
    | zero => omega
    | succ n => rw [littleEndian, littleEndian, List.take_succ_cons, ih (by omega)]

lemma ofLittleEndian_lt (bs : List UInt8) : ofLittleEndian bs < 256 ^ bs.length := by
  induction bs with
  | nil => simp [ofLittleEndian]
  | cons b bs ih =>
    have hb := b.toNat_lt
    rw [ofLittleEndian, List.length_cons, Nat.pow_succ]
    omega

lemma littleEndian_ofLittleEndian (bs : List UInt8) :
    littleEndian bs.length (ofLittleEndian bs) = bs := by
  induction bs with
  | nil => rfl
  | cons b bs ih =>
    have hb := b.toNat_lt
    have hdiv : (b.toNat + 256 * ofLittleEndian bs) / 256 = ofLittleEndian bs := by omega
    rw [ofLittleEndian, List.length_cons, littleEndian, hdiv, ih]
    refine congrArg (· :: bs) (UInt8.toNat_inj.mp ?_)
    rw [UInt8.toNat_ofNat']
    omega

namespace Access

lemma bank_ofType {type : DataType} (h : type ≠ .noType) :
    (ofType type).bank = Bank.ofType type := by
  cases type <;> first | rfl | exact (h rfl).elim

lemma bank_slot {type : DataType} (h : type ≠ .noType) (hvector : type.isVector = false) :
    (slot type).bank = Bank.ofType type := by
  cases type <;> first
    | rfl
    | exact (h rfl).elim
    | simp [DataType.isVector, DataType.lane?] at hvector

@[simp] lemma bank_whole (bank : Bank) : (whole bank).bank = bank := by
  cases bank <;> rfl

lemma decode?_isSome {access : Access} {bs : List UInt8} (h : bs.length = access.bytes) :
    (access.decode? bs).isSome := by
  simp [decode?, h]

end Access

namespace Datum

variable {d : Datum} {type : DataType}

/-- A value fits into a register of its bank. -/
lemma length_bytes_le (h : d.fits type) :
    d.bytes.length ≤ (Access.whole (Bank.ofType type)).bytes := by
  cases d <;> cases type <;>
    simp_all [fits, bytes, Access.whole, Bank.ofType, DataType.isIntegral, Access.bytes,
      vectorBytes]

lemma ofType_bytes_le (h : d.fits type) : (Access.ofType type).bytes ≤ d.bytes.length := by
  cases d <;> cases type <;> simp_all [fits, bytes, Access.ofType, Access.bytes, vectorBytes]

/-- What is stored of a value are its low bytes. -/
lemma encode?_eq (h : d.fits type) :
    (Access.ofType type).encode? d = some (d.bytes.take (Access.ofType type).bytes) := by
  cases d <;> cases type <;>
    simp_all [fits, bytes, Access.ofType, Access.bytes, Access.encode?, wordBytes, doubleWordBytes,
      take_littleEndian, vectorBytes, List.take_of_length_le]

/-- A value that is no narrow integer is read back from its bytes. -/
lemma decode?_bytes (h : d.fits type) (hnarrow : type ≠ .int8 ∧ type ≠ .int16) :
    d.bytes.length = (Access.ofType type).bytes ∧
      (Access.ofType type).decode? d.bytes = some d := by
  cases d <;> cases type <;>
    simp_all [fits, bytes, Access.ofType, Access.bytes, Access.decode?,
      ofLittleEndian_wordBytes, ofLittleEndian_doubleWordBytes, vectorBytes]

lemma fits_of_decode? {bs : List UInt8} (h : (Access.ofType type).decode? bs = some d)
    (htype : type ≠ .noType) : d.fits type := by
  unfold Access.decode? at h
  split at h
  · rename_i hlength
    obtain rfl := Option.some.inj h
    cases type <;> first | rfl | exact (htype rfl).elim | exact beq_iff_eq.mpr hlength
  · simp at h

/-- A value is passed by its low bytes. -/
lemma passed?_eq (h : d.fits type) : type.passed? d =
    (Access.ofType type).decode? (d.bytes.take (Access.ofType type).bytes) := by
  rw [DataType.passed?, encode?_eq h, Option.bind_some]

lemma passed?_isSome (h : d.fits type) : (type.passed? d).isSome := by
  rw [passed?_eq h]
  exact Access.decode?_isSome (by simp [ofType_bytes_le h])

end Datum

/-! ## Operations -/

lemma Datum.cases_of_isWord {d : Datum} {type : DataType} (hd : d.fits type) (h : type.isWord) :
    (type = .int32 ∧ ∃ v, d = .int32 v) ∨ (type = .int64 ∧ ∃ v, d = .int64 v) := by
  cases d <;> cases type <;> simp_all [Datum.fits, DataType.isWord]

lemma Datum.cases_of_isFloating {d : Datum} {type : DataType} (hd : d.fits type)
    (h : type.isFloating) :
    (type = .float ∧ ∃ v, d = .float v) ∨ (type = .double ∧ ∃ v, d = .double v) := by
  cases d <;> cases type <;> simp_all [Datum.fits, DataType.isFloating]

lemma Datum.exists_int32 {d : Datum} (hd : d.fits .int32) : ∃ v, d = .int32 v := by
  cases d <;> simp_all [Datum.fits]

/-- The type of the right operand of an integer operation: that of the left one, or of a count. -/
def IntOp.TakesRight (op : IntOp) (type right : DataType) : Prop :=
  right = type ∨ right = .int32 ∧ op.takesCount

namespace IntOp

variable {op : IntOp} {type right : DataType} {a b : Datum}

lemma exists_onData? (hword : type.isWord) (hright : op.TakesRight type right) (ha : a.fits type)
    (hb : b.fits right) : ∃ d, op.onData? a b = some d ∧ d.fits type := by
  rcases Datum.cases_of_isWord ha hword with ⟨rfl, a, rfl⟩ | ⟨rfl, a, rfl⟩
  · have hright : right = .int32 := hright.elim id And.left
    obtain ⟨b, rfl⟩ := Datum.exists_int32 (hright ▸ hb)
    exact ⟨_, rfl, rfl⟩
  · rcases hright with rfl | ⟨rfl, hcount⟩
    · cases b <;> simp_all [Datum.fits, onData?]
    · obtain ⟨b, rfl⟩ := Datum.exists_int32 hb
      exact ⟨_, if_pos hcount, rfl⟩

/-- Of a count only the remainder by the width matters. -/
lemma apply_eq_of_mod {w : Nat} (hop : op.takesCount) (a : BitVec w) {b b' : BitVec w}
    (h : b.toNat % w = b'.toNat % w) : op.apply a b = op.apply a b' := by
  cases op <;> simp_all [takesCount, apply]

/-- Rotating to the right by the opposite count is rotating to the left. -/
lemma rotateRight_eq_rotateLeft {w n m : Nat} (hw : 0 < w) (a : BitVec w) (h : (n + m) % w = 0) :
    a.rotateRight n = a.rotateLeft m := by
  rw [BitVec.rotateRight_def, BitVec.rotateLeft_def]
  have hn := Nat.mod_lt n hw
  have hm := Nat.mod_lt m hw
  rw [Nat.add_mod] at h
  by_cases hzero : m % w = 0
  · have hn' : n % w = 0 := by rwa [hzero, Nat.add_zero, Nat.mod_mod] at h
    simp [hzero, hn', BitVec.ushiftRight_eq_zero, BitVec.shiftLeft_eq_zero]
  · have hsum : n % w + m % w = w := by
      by_contra hne
      rcases Nat.lt_or_gt_of_ne hne with hlt | hgt
      · rw [Nat.mod_eq_of_lt hlt] at h
        omega
      · rw [Nat.mod_eq_sub_mod (by omega), Nat.mod_eq_of_lt (by omega)] at h
        omega
    have hn' : n % w = w - m % w := by omega
    have hm' : w - (w - m % w) = m % w := by omega
    rw [hn', hm', BitVec.or_comm]

/-- Where there is only a rotation to the right, the count is negated. -/
lemma ror_neg (hword : type.isWord) (ha : a.fits type) (count : UInt32) :
    ror.onData? a (.int32 (-count)) = rol.onData? a (.int32 count) := by
  have hneg : (-count).toNat = (2 ^ 32 - count.toNat) % 2 ^ 32 := UInt32.toNat_neg count
  have hcount := count.toNat_lt
  rcases Datum.cases_of_isWord ha hword with ⟨rfl, a, rfl⟩ | ⟨rfl, a, rfl⟩
  · simp only [onData?, apply, Option.some.injEq, Datum.int32.injEq, UInt32.toNat_toBitVec]
    rw [rotateRight_eq_rotateLeft (by decide)]
    rw [hneg]
    omega
  · simp only [onData?, apply, takesCount, if_true, Option.some.injEq, Datum.int64.injEq,
      UInt64.toNat_toBitVec, UInt32.toNat_toUInt64]
    rw [rotateRight_eq_rotateLeft (by decide)]
    rw [hneg]
    omega

end IntOp

namespace FloatUnit

variable {u : FloatUnit} {type : DataType} {a b : Datum}

lemma exists_onData? (op : FloatOp) (hfloating : type.isFloating) (ha : a.fits type)
    (hb : b.fits type) : ∃ d, u.onData? op a b = some d ∧ d.fits type := by
  rcases Datum.cases_of_isFloating ha hfloating with ⟨rfl, a, rfl⟩ | ⟨rfl, a, rfl⟩ <;>
    rcases Datum.cases_of_isFloating hb hfloating with ⟨h, b, rfl⟩ | ⟨h, b, rfl⟩ <;>
    simp_all [onData?, Datum.fits]

lemma exists_sqrt? (hfloating : type.isFloating) (ha : a.fits type) :
    ∃ d, u.sqrt? a = some d ∧ d.fits type := by
  rcases Datum.cases_of_isFloating ha hfloating with ⟨rfl, a, rfl⟩ | ⟨rfl, a, rfl⟩ <;>
    simp [sqrt?, Datum.fits]

end FloatUnit

namespace Datum

variable {type : DataType} {a b : Datum}

lemma exists_negate? (hword : type.isWord) (ha : a.fits type) :
    ∃ d, a.negate? = some d ∧ d.fits type := by
  rcases cases_of_isWord ha hword with ⟨rfl, a, rfl⟩ | ⟨rfl, a, rfl⟩ <;> exact ⟨_, rfl, rfl⟩

/-- Words are compared as the integers that they stand for. -/
lemma exists_compare? (hword : type.isWord) (ha : a.fits type) (hb : b.fits type) (c : Condition) :
    ∃ x y, a.signed? = some x ∧ b.signed? = some y ∧ a.compare? c b = some (c.holds x y) := by
  rcases cases_of_isWord ha hword with ⟨rfl, a, rfl⟩ | ⟨rfl, a, rfl⟩ <;>
    rcases cases_of_isWord hb hword with ⟨h, b, rfl⟩ | ⟨h, b, rfl⟩ <;>
    simp_all [signed?, compare?]

lemma exists_address? (ha : a.fits .address) : ∃ v, a = .int64 v := by
  cases a <;> simp_all [fits]

end Datum

end TreeCode
