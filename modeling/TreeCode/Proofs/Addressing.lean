import Mathlib.Tactic.Common
import TreeCode.Proofs.Encodable
import TreeCode.Proofs.Halfwords
import TreeCode.Proofs.Values

/-!
# Memory operands of AArch64

The words that a load or store at a base and an offset is encoded as access memory once, at the sum
of the two.  The immediate of one word holds the offset if it is a number of units of the access
below 4096; for any other one the sum is put into `x17` first.  What is loaded, what is stored and
what stays as it was is said by `Accessed`.
-/

namespace TreeCode.A64

/-! ## Accesses -/

namespace Core

/-- The bits in the register of a bank. -/
def bits (c : Core) (r : Register) : Bank → Nat
  | .general => (c.general r).toNat
  | .vector => (c.vector r).toNat

end Core

/-- The bits of a register that an access has loaded some bytes into: integers narrower than 32 bits
have their sign extended to 32 bits, and all bits above are zero. -/
def loadedBits (access : Access) (bytes : List UInt8) : Nat :=
  match access with
  | .i8 | .i16 => (UInt32.ofInt (signedField (8 * access.bytes) (ofLittleEndian bytes))).toNat
  | _ => ofLittleEndian bytes

/-- What is different after one access to memory: the destination of a load, or the bytes that a
store writes, and nothing else but `x17`. -/
structure Accessed (access : Access) (isLoad : Bool) (r : Register) (address : UInt64)
    (c d : Core) : Prop where
  loaded : isLoad = true →
    d.bits r access.bank = loadedBits access (c.bytesAt address access.bytes)
  general : ∀ s, s ≠ x17 → (isLoad = true → access.bank = .general → s ≠ r) →
    d.general s = c.general s
  vector : ∀ s, (isLoad = true → access.bank = .vector → s ≠ r) → d.vector s = c.vector s
  stack : d.stack = c.stack
  memory : d.memory =
    if isLoad then c.memory
    else (c.setBytes address (littleEndian access.bytes (c.bits r access.bank))).memory

variable {access : Access} {isLoad : Bool} {reg : Reg} {r b : Register} {address : UInt64}
  {offset : Int32} {imm : UInt32} {c d : Core}

lemma length_bytesAt (c : Core) (address : UInt64) (count : Nat) :
    (c.bytesAt address count).length = count := by
  simp [Core.bytesAt]

/-- What is loaded fits the register. -/
lemma loadedBits_lt (access : Access) (c : Core) (address : UInt64) :
    loadedBits access (c.bytesAt address access.bytes) <
      match access.bank with
      | .general => 2 ^ 64
      | .vector => 2 ^ 128 := by
  have hbytes := ofLittleEndian_lt (c.bytesAt address access.bytes)
  rw [length_bytesAt] at hbytes
  have hsigned (s : Int) : (UInt32.ofInt s).toNat < 2 ^ 64 :=
    Nat.lt_trans (UInt32.toNat_lt _) (by decide)
  cases access with
  | i8 | i16 => exact hsigned _
  | i32 | i64 | f32 | f64 | v128 => exact Nat.lt_of_lt_of_le hbytes (by decide)

lemma perform_store (hr : access.bank = .general → r ≠ r31) (c : Core) :
    c.perform r address (.ofAccess false access) =
      c.setBytes address (littleEndian access.bytes (c.bits r access.bank)) := by
  show c.perform r address (.store access.bank access.bytes) = _
  cases hbank : access.bank with
  | general => rw [Core.perform, Core.read, if_neg (hr hbank)]; rfl
  | vector => rfl

lemma perform_load (hbank : access.bank = .general) (c : Core) :
    c.perform r address (.ofAccess true access) =
      c.write r (UInt64.ofNat (loadedBits access (c.bytesAt address access.bytes))) := by
  have hsigned (s : Int) : (UInt32.ofInt s).toUInt64 = UInt64.ofNat (UInt32.ofInt s).toNat := by
    rw [← UInt32.toNat_toUInt64, UInt64.ofNat_toNat]
  cases access with
  | i8 | i16 => exact congrArg (c.write r) (hsigned _)
  | i32 | i64 => rfl
  | f32 | f64 | v128 => cases hbank

lemma perform_load_vector (hbank : access.bank = .vector) (c : Core) :
    c.perform r address (.ofAccess true access) = c.writeVector r
      (BitVec.ofNat 128 (loadedBits access (c.bytesAt address access.bytes))) := by
  cases access with
  | i8 | i16 | i32 | i64 => cases hbank
  | f32 | f64 | v128 => rfl

/-- Performing an access is one access, which leaves `x17` as it was unless that is what is
loaded. -/
lemma accessed_perform (hr : access.bank = .general → r ≠ r31) (isLoad : Bool) (c : Core) :
    Accessed access isLoad r address c (c.perform r address (.ofAccess isLoad access)) ∧
      ((access.bank = .general → r ≠ x17) →
        (c.perform r address (.ofAccess isLoad access)).general x17 = c.general x17) := by
  have hlt := loadedBits_lt access c address
  cases isLoad with
  | false =>
    rw [perform_store hr]
    exact ⟨⟨by simp, fun _ _ _ => rfl, fun _ _ => rfl, rfl, rfl⟩, fun _ => rfl⟩
  | true =>
    cases hbank : access.bank with
    | general =>
      rw [hbank] at hlt
      rw [perform_load hbank, Core.write_of_ne (hr hbank)]
      refine ⟨⟨fun _ => ?_, fun s _ hs => Function.update_of_ne (hs rfl hbank) _ _,
        fun _ _ => rfl, rfl, rfl⟩, fun h17 => Function.update_of_ne (Ne.symm (h17 rfl)) _ _⟩
      simp only [hbank, Core.bits, Function.update_self, UInt64.toNat_ofNat', Nat.mod_eq_of_lt hlt]
    | vector =>
      rw [hbank] at hlt
      rw [perform_load_vector hbank]
      refine ⟨⟨fun _ => ?_, fun _ _ _ => rfl,
        fun s hs => Function.update_of_ne (hs rfl hbank) _ _, rfl, rfl⟩, fun _ => rfl⟩
      simp only [hbank, Core.bits, Core.writeVector, Function.update_self, BitVec.toNat_ofNat,
        Nat.mod_eq_of_lt hlt]

/-- What `x17` holds before an access does not matter. -/
lemma Accessed.of_write {value : UInt64} (hr : access.bank = .general → r ≠ x17)
    (h : Accessed access isLoad r address (c.write x17 value) d) :
    Accessed access isLoad r address c d := by
  rw [Core.write_of_ne (by decide)] at h
  have hbits : Core.bits { c with general := Function.update c.general x17 value } r access.bank =
      c.bits r access.bank := by
    cases hbank : access.bank with
    | general => exact congrArg UInt64.toNat (Function.update_of_ne (hr hbank) _ _)
    | vector => rfl
  refine ⟨h.loaded, fun s hs hne => ?_, h.vector, h.stack, ?_⟩
  · rw [h.general s hs hne]
    exact Function.update_of_ne hs _ _
  · rw [h.memory, hbits]
    rfl

/-! ## Offsets -/

/-- The offsets that the immediate of a load or store can hold. -/
lemma isSome_scaled?_iff : (scaled? access offset).isSome ↔
    0 ≤ offset.toInt ∧ (access.bytes : Int) ∣ offset.toInt ∧
      offset.toInt < 4096 * access.bytes := by
  have hpos : (0 : Int) < access.bytes := by cases access <;> decide
  simp only [scaled?, Int.dvd_iff_emod_eq_zero, Int.ediv_lt_iff_lt_mul hpos]
  split <;> simp_all

lemma eq_of_scaled? (h : scaled? access offset = some imm) : imm.toNat < 2 ^ 12 ∧
    UInt64.ofNat (imm.toNat * access.bytes) = UInt64.ofInt offset.toInt := by
  simp only [scaled?] at h
  split at h
  · rename_i hrange
    obtain ⟨hpos, hmod, hlt⟩ := hrange
    obtain rfl := Option.some.inj h
    have hdiv : 0 ≤ offset.toInt / access.bytes := Int.ediv_nonneg hpos (Int.natCast_nonneg _)
    have himm : (UInt32.ofNat (offset.toInt / access.bytes).toNat).toNat =
        (offset.toInt / access.bytes).toNat := by
      rw [UInt32.toNat_ofNat']
      omega
    refine ⟨by omega, ?_⟩
    rw [himm, ← ofInt_natCast, Int.natCast_mul, Int.toNat_of_nonneg hdiv,
      Int.ediv_mul_cancel_of_emod_eq_zero hmod]
  · cases h

/-! ## Words -/

/-- The registers of the pool are neither the stack pointer nor `x17`. -/
lemma general_ne {index : Nat} (h : general index = .ok r) : r ≠ r31 ∧ r ≠ x17 := by
  unfold general at h
  split at h
  · rename_i hlt
    obtain rfl := Except.ok.inj h
    simp only [generalPool, Isa.pool] at hlt
    simp only [ne_eq, r31, x17, Fin.mk.injEq]
    omega
  · cases h

lemma accessRegister_ne (h : accessRegister access reg = .ok r) (hbank : access.bank = .general) :
    r ≠ r31 ∧ r ≠ x17 := by
  unfold accessRegister at h
  split at h
  · cases h
  · rename_i hsame
    cases reg with
    | general index => exact general_ne h
    | vector index =>
      have hvector := not_not.mp hsame
      rw [hbank] at hvector
      cases hvector

lemma encodeAll_append (insts insts' : List Inst) :
    encodeAll (insts ++ insts') = encodeAll insts ++ encodeAll insts' := List.flatMap_append

lemma execute?_move (isLoad : Bool) (himm : imm.toNat < 2 ^ 12) (c : Core) :
    execute? (encodeAll [move isLoad access r b imm]) c =
      some (c.perform r (c.address b + UInt64.ofNat (imm.toNat * access.bytes))
          (MemoryOp.ofAccess isLoad access),
        [⟨isLoad, c.address b + UInt64.ofNat (imm.toNat * access.bytes), access.bytes⟩]) := by
  rw [encodeAll_cons, execute?_wordBytes, step?_move isLoad himm]
  rfl

/-- Adding an offset to a base in `x17`. -/
lemma execute?_sum (hb : b ≠ r31) (hb17 : b ≠ x17) (offset : UInt64) (rest : List UInt8)
    (c : Core) :
    execute? (encodeAll (movWide x17 offset true ++ [.data .add true x17 b x17]) ++ rest) c =
      execute? rest (c.write x17 (c.general b + offset)) := by
  have hread : (c.write x17 (narrowed true offset)).read b = c.general b := by
    rw [Core.write_of_ne (by decide), Core.read, if_neg hb]
    exact Function.update_of_ne hb17 _ _
  rw [encodeAll_append, List.append_assoc, execute?_movWide, encodeAll_cons,
    List.append_assoc, execute?_silent (step?_add _), hread, Core.read_write_self (by decide),
    Core.write_write]
  rfl

/-- The words for a base and an offset access the sum of the two. -/
lemma exists_execute?_memory {index : Nat} (hb : general index = .ok b)
    (hr : access.bank = .general → r ≠ r31 ∧ r ≠ x17) (isLoad : Bool) (offset : Int32) :
    ∃ insts, memory access isLoad r (.reg index) offset = .ok insts ∧ ∀ c, ∃ d,
      execute? (encodeAll insts) c =
          some (d, [⟨isLoad, c.general b + UInt64.ofInt offset.toInt, access.bytes⟩]) ∧
        Accessed access isLoad r (c.general b + UInt64.ofInt offset.toInt) c d := by
  obtain ⟨hb31, hb17⟩ := general_ne hb
  cases hscaled : scaled? access offset with
  | some imm =>
    obtain ⟨himm, hoffset⟩ := eq_of_scaled? hscaled
    refine ⟨[move isLoad access r b imm], ?_, fun c =>
      ⟨c.perform r (c.general b + UInt64.ofInt offset.toInt) (.ofAccess isLoad access), ?_, ?_⟩⟩
    · simp only [memory, hb, Except.ok_bind, hscaled]
      rfl
    · rw [execute?_move isLoad himm, hoffset, Core.address, if_neg hb31]
    · exact (accessed_perform (fun hbank => (hr hbank).1) isLoad c).1
  | none =>
    refine ⟨movWide x17 (UInt64.ofInt offset.toInt) true ++ [.data .add true x17 b x17] ++
      [move isLoad access r x17 0], ?_, fun c =>
        ⟨(c.write x17 (c.general b + UInt64.ofInt offset.toInt)).perform r
          (c.general b + UInt64.ofInt offset.toInt) (.ofAccess isLoad access), ?_, ?_⟩⟩
    · simp only [memory, hb, Except.ok_bind, hscaled, List.append_assoc]
      rfl
    · have hsum : (c.write x17 (c.general b + UInt64.ofInt offset.toInt)).address x17 =
          c.general b + UInt64.ofInt offset.toInt := by
        rw [← Core.read_eq_address (by decide), Core.read_write_self (by decide)]
      have hzero (address : UInt64) : address + UInt64.ofNat 0 = address := UInt64.add_zero _
      rw [encodeAll_append, execute?_sum hb31 hb17, execute?_move isLoad (by decide), hsum,
        UInt32.toNat_zero, Nat.zero_mul, hzero]
    · exact .of_write (fun hbank => (hr hbank).2)
        (accessed_perform (fun hbank => (hr hbank).1) isLoad _).1

/-- The abstract load or store of a pool register. -/
def memoryInstr (isLoad : Bool) (access : Access) (reg : Reg) (base : Base) (offset : Int32) :
    Instr :=
  if isLoad then .load access reg base offset else .store access reg base offset

lemma emission_memoryInstr (hr : accessRegister access reg = .ok r) (isLoad : Bool) (base : Base)
    (offset : Int32) :
    Isa.aarch64.emission (memoryInstr isLoad access reg base offset) =
      match memory access isLoad r base offset with
      | .ok insts => ⟨encodeAll insts, none⟩
      | .error fault => ⟨[], some (.encoding fault)⟩ := by
  cases isLoad with
  | true =>
    simp only [memoryInstr, if_true, Isa.emission, select, selectUnlimited, hr, Except.ok_bind]
    cases memory access true r base offset <;> rfl
  | false =>
    simp only [memoryInstr, Bool.false_eq_true, if_false, Isa.emission, select, selectUnlimited, hr,
      Except.ok_bind]
    cases memory access false r base offset <;> rfl

/-- **Memory operands address what was asked.**  A load or store of a pool register of the bank of
the access has an encoding with any pool register as base and any offset.  Its words make exactly
one access, at the sum of the base and the offset modulo 2^64, and change nothing else but `x17`.
With the frame as base it is one word that makes one access, at the sum of the stack pointer and the
offset, if the offset is a number of units of the access from 0 to 4095; with any other offset it
fails and has no bytes. -/
theorem execute?_memoryInstr (hbank : access.bank = reg.bank)
    (hreg : reg.index < Isa.aarch64.pool reg.bank) (isLoad : Bool) (offset : Int32) :
    ∃ r, accessRegister access reg = .ok r ∧
      (∀ index < Isa.aarch64.pool .general, ∃ b, general index = .ok b ∧
        (Isa.aarch64.emission (memoryInstr isLoad access reg (.reg index) offset)).failure = none ∧
        ∀ c, ∃ d,
          execute?
              (Isa.aarch64.emission (memoryInstr isLoad access reg (.reg index) offset)).bytes c =
            some (d, [⟨isLoad, c.general b + UInt64.ofInt offset.toInt, access.bytes⟩]) ∧
          Accessed access isLoad r (c.general b + UInt64.ofInt offset.toInt) c d) ∧
      if 0 ≤ offset.toInt ∧ (access.bytes : Int) ∣ offset.toInt ∧
          offset.toInt < 4096 * access.bytes then
        (Isa.aarch64.emission (memoryInstr isLoad access reg .frame offset)).failure = none ∧
        (Isa.aarch64.emission (memoryInstr isLoad access reg .frame offset)).bytes.length = 4 ∧
        ∀ c, ∃ d,
          execute? (Isa.aarch64.emission (memoryInstr isLoad access reg .frame offset)).bytes c =
            some (d, [⟨isLoad, c.stack + UInt64.ofInt offset.toInt, access.bytes⟩]) ∧
          Accessed access isLoad r (c.stack + UInt64.ofInt offset.toInt) c d ∧
            d.general x17 = c.general x17
      else
        (Isa.aarch64.emission (memoryInstr isLoad access reg .frame offset)).failure =
            some (.encoding (.frameOffset offset)) ∧
          (Isa.aarch64.emission (memoryInstr isLoad access reg .frame offset)).bytes = [] := by
  obtain ⟨r, hr⟩ := exists_accessRegister hbank hreg
  refine ⟨r, hr, fun index hindex => ?_, ?_⟩
  · obtain ⟨b, hb⟩ := exists_general hindex
    obtain ⟨insts, hinsts, hexecute⟩ :=
      exists_execute?_memory hb (accessRegister_ne hr) isLoad offset
    rw [emission_memoryInstr hr, hinsts]
    exact ⟨b, hb, rfl, hexecute⟩
  · rw [emission_memoryInstr hr]
    cases hscaled : scaled? access offset with
    | none =>
      have hnot : ¬ (scaled? access offset).isSome := by simp [hscaled]
      rw [if_neg (hnot ∘ isSome_scaled?_iff.mpr)]
      simp only [memory, hscaled, and_self]
    | some imm =>
      have hsome : (scaled? access offset).isSome := by simp [hscaled]
      obtain ⟨himm, hoffset⟩ := eq_of_scaled? hscaled
      have hmemory : memory access isLoad r .frame offset = .ok [move isLoad access r r31 imm] := by
        simp only [memory, hscaled]
        rfl
      have hne (h : access.bank = .general) := (accessRegister_ne hr h).1
      rw [if_pos (isSome_scaled?_iff.mp hsome), hmemory]
      refine ⟨rfl, rfl, fun c => ?_⟩
      obtain ⟨haccessed, h17⟩ :=
        @accessed_perform access r (c.stack + UInt64.ofInt offset.toInt) hne isLoad c
      refine ⟨_, ?_, haccessed, h17 fun h => (accessRegister_ne hr h).2⟩
      rw [execute?_move isLoad himm, hoffset]
      rfl

/-- Registers that hold 0x1000 times their number, and memory in which every byte is the low one of
its address. -/
def stamped : Core :=
  ⟨fun r => UInt64.ofNat (0x1000 * r.val), 0x8000, fun _ => 0, fun address => address.toUInt8⟩

/-- The four bytes before the address in a register are loaded. -/
theorem execute?_memoryInstr_stamped : ∃ d,
    execute? (Isa.aarch64.emission (.load .i32 (.general 0) (.reg 1) (-4))).bytes stamped =
        some (d, [⟨true, 0x9ffc, 4⟩]) ∧
      d.general ⟨9, by decide⟩ = 0xfffefdfc ∧ d.general ⟨11, by decide⟩ = 0xb000 := by
  obtain ⟨r, hr, hreg, -⟩ := @execute?_memoryInstr .i32 (.general 0) rfl (by decide) true (-4)
  obtain ⟨b, hb, -, hexecute⟩ := hreg 1 (by decide)
  obtain ⟨d, hd, haccessed⟩ := hexecute stamped
  cases hr
  cases hb
  refine ⟨d, hd, UInt64.toNat_inj.mp (haccessed.loaded rfl), ?_⟩
  exact haccessed.general ⟨11, by decide⟩ (by decide) fun _ _ => by decide

end TreeCode.A64
