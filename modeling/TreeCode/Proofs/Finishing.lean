import TreeCode.Proofs.Control

/-!
# Finished code

Code in the making is a sequence of pieces: bytes that stay, and jumps whose labels were not bound
when they were made.  Every step puts pieces behind those that are there (`exists_made_step`), and
finishing replaces each open jump by the bytes that the jump would have had if its label had been
bound before (`filled_of_finish`).  So all transfers go where they say, whichever way their bytes
came about.
-/

namespace TreeCode

/-! ## Filling an open jump -/

namespace Isa

variable {isa : Isa} {base : UInt64} {form : BranchForm} {code code' : Array UInt8}
  {front back : List UInt8} {place target : Nat}

lemma toInt_toInt64_ofInt {d : Int} (hlow : -2 ^ 63 ≤ d) (hhigh : d < 2 ^ 63) :
    (UInt64.ofInt d).toInt64.toInt = d := by
  rw [← Int64.toInt_toBitVec, UInt64.toBitVec_toInt64, BitVec.toInt_eq_toNat_bmod,
    UInt64.toNat_toBitVec, UInt64.ofInt, UInt64.toNat_ofNat', Int.bmod_def]
  omega

lemma toUInt32_ofInt (d : Int) : (Int32.ofInt d).toUInt32 = UInt32.ofInt d := by
  apply UInt32.toNat_inj.mp
  rw [← Int32.toNat_toBitVec, Int32.toBitVec_ofInt, BitVec.toNat_ofInt, UInt32.ofInt,
    UInt32.toNat_ofNat']
  omega

/-- A distance between two places of the code does not depend on where the code is. -/
lemma distance_eq_ok {d : Int} (hlow : -2147483648 ≤ d) (hhigh : d ≤ 2147483647)
    (hd : d = (target : Int) - ((place + 1 + 4 : Nat) : Int)) :
    X64.distance (address base place) (address base target) = .ok (Int32.ofInt d) := by
  have hfrom : address base place + 5 = address base (place + 1 + 4) := by
    rw [Nat.add_assoc, address_add]
    rfl
  have hdelta : address base target - (address base place + 5) = UInt64.ofInt d := by
    rw [hfrom, hd, ofInt_sub, ofInt_natCast, ofInt_natCast, UInt64.sub_eq_iff_eq_add,
      UInt64.add_comm, add_sub_address]
  simp only [X64.distance, hdelta, toInt_toInt64_ofInt (show -2 ^ 63 ≤ d by omega) (by omega)]
  rw [if_pos ⟨hlow, hhigh⟩]

lemma toList_fillDirect (hplace : place = front.length)
    (hcode : code.toList = front ++ isa.openJump .direct ++ back)
    (h : isa.fillDirect code place target = .ok code') :
    ∃ bytes, isa.jump base .direct place target = .ok bytes ∧
      code'.toList = front ++ bytes ++ back := by
  cases isa with
  | x64 =>
    simp only [fillDirect] at h
    split at h
    · rename_i hrange
      cases h
      have hbytes (d : Int) : X64.encodeAll [.jump (Int32.ofInt d)] =
          [0xe9] ++ wordBytes (UInt32.ofInt d) := by
        rw [← toUInt32_ofInt, X64.encodeAll, List.flatMap_singleton]
        rfl
      have hopen : x64.openJump .direct = [0xe9] ++ wordBytes 0 := rfl
      have hdistance := @distance_eq_ok base place target _ hrange.1 hrange.2 rfl
      refine ⟨_, by rw [jump, hdistance]; rfl, ?_⟩
      rw [hopen, ← List.append_assoc] at hcode
      rw [toList_patch (by simp [hplace]) hcode (by simp), hbytes, List.append_assoc front]
    · simp at h
  | aarch64 =>
    obtain ⟨w, hw, h⟩ := Except.bind_eq_ok_iff.mp h
    cases h
    have hopen : code.toList = front ++ wordBytes (A64.Inst.branch 0).encode ++ back := by
      rw [hcode]
      simp [openJump, A64.encodeAll]
    refine ⟨_, by rw [jump, hw]; rfl, ?_⟩
    rw [toList_patch hplace hopen (by simp), wordAt_eq hplace hopen]
    simp [A64.encodeAll, A64.Inst.encode]

/-- A word with its halfword field set. -/
def filledWord (value : UInt64) (i : Nat) (w : UInt32) : UInt32 :=
  w &&& ~~~((0xffff : UInt32) <<< 5) ||| (A64.halfword value i <<< 5)

lemma toList_fillHalfword {w : UInt32} {value : UInt64} {i : Nat}
    (hplace : place + 4 * i = front.length)
    (hcode : code.toList = front ++ (wordBytes w ++ back)) :
    (fillHalfword value place code i).toList =
      (front ++ wordBytes (filledWord value i w)) ++ back := by
  rw [← List.append_assoc] at hcode
  rw [fillHalfword, toList_patch hplace hcode (by simp), wordAt_eq hplace hcode]
  rfl

/-- The four words are filled one after the other. -/
lemma toList_fillHalfwords {w₀ w₁ w₂ w₃ : UInt32} {value : UInt64}
    (hcode : code.toList = front ++
      (wordBytes w₀ ++ (wordBytes w₁ ++ (wordBytes w₂ ++ (wordBytes w₃ ++ back))))) :
    ([0, 1, 2, 3].foldl (fillHalfword value front.length) code).toList =
      front ++ wordBytes (filledWord value 0 w₀) ++ wordBytes (filledWord value 1 w₁) ++
        wordBytes (filledWord value 2 w₂) ++ wordBytes (filledWord value 3 w₃) ++ back := by
  have h₀ := @toList_fillHalfword _ _ _ front.length _ value 0 (by simp) hcode
  have h₁ := @toList_fillHalfword _ _ _ front.length _ value 1 (by simp) h₀
  have h₂ := @toList_fillHalfword _ _ _ front.length _ value 2 (by simp) h₁
  have h₃ := @toList_fillHalfword _ _ _ front.length _ value 3 (by simp) h₂
  simp only [List.foldl_cons, List.foldl_nil, h₃]

/-- Filling the empty field of an instruction gives the instruction with the field. -/
lemma filledWord_movz (dst : A64.Register) (value : UInt64) :
    filledWord value 0 (A64.Inst.movz true 0 0 dst).encode =
      (A64.Inst.movz true 0 (A64.halfword value 0) dst).encode := by
  have hkept : (A64.Inst.movz true 0 0 dst).encode &&& ~~~((0xffff : UInt32) <<< 5) =
      A64.movzPattern true ||| (UInt32.ofNat 0 <<< 21) ||| A64.field dst 0 := by
    revert dst
    decide
  rw [filledWord, hkept, A64.Inst.encode, UInt32.or_assoc, UInt32.or_comm (A64.field dst 0),
    ← UInt32.or_assoc]

lemma filledWord_movk (dst : A64.Register) (value : UInt64) {half : Nat} (hhalf : half < 4) :
    filledWord value half (A64.Inst.movk true half 0 dst).encode =
      (A64.Inst.movk true half (A64.halfword value half) dst).encode := by
  have hkept : (A64.Inst.movk true half 0 dst).encode &&& ~~~((0xffff : UInt32) <<< 5) =
      A64.movkPattern true ||| (UInt32.ofNat half <<< 21) ||| A64.field dst 0 := by
    revert dst
    interval_cases half <;> decide
  rw [filledWord, hkept, A64.Inst.encode, UInt32.or_assoc, UInt32.or_comm (A64.field dst 0),
    ← UInt32.or_assoc]

/-- The words that set all halfwords of a register. -/
lemma encodeAll_movAbsolute (dst : A64.Register) (value : UInt64) :
    A64.encodeAll (A64.movAbsolute dst value) =
      wordBytes (A64.Inst.movz true 0 (A64.halfword value 0) dst).encode ++
        (wordBytes (A64.Inst.movk true 1 (A64.halfword value 1) dst).encode ++
          (wordBytes (A64.Inst.movk true 2 (A64.halfword value 2) dst).encode ++
            wordBytes (A64.Inst.movk true 3 (A64.halfword value 3) dst).encode)) := by
  simp [A64.encodeAll, A64.movAbsolute]

/-- The words of a jump through a register. -/
lemma encodeAll_viaRegister (value : UInt64) :
    A64.encodeAll (A64.viaRegister false value) =
      A64.encodeAll (A64.movAbsolute A64.x16 value) ++
        wordBytes (A64.Inst.branchReg A64.x16).encode := by
  simp [A64.encodeAll, A64.viaRegister]

/-- Filling the words that set a register to zero gives those that set it to a number. -/
lemma toList_fillMoves (dst : A64.Register) (value : UInt64)
    (hcode : code.toList = front ++ A64.encodeAll (A64.movAbsolute dst 0) ++ back) :
    (aarch64.fillIndirect code front.length value).toList =
      front ++ A64.encodeAll (A64.movAbsolute dst value) ++ back := by
  rw [encodeAll_movAbsolute, A64.halfword_zero (by decide), A64.halfword_zero (by decide),
    A64.halfword_zero (by decide), A64.halfword_zero (by decide)] at hcode
  simp only [List.append_assoc] at hcode
  rw [fillIndirect, toList_fillHalfwords hcode, encodeAll_movAbsolute, filledWord_movz,
    filledWord_movk _ _ (by decide), filledWord_movk _ _ (by decide),
    filledWord_movk _ _ (by decide)]
  simp only [List.append_assoc]

lemma toList_fillIndirect (hplace : place = front.length)
    (hcode : code.toList = front ++ isa.openJump .indirect ++ back) :
    ∃ bytes, isa.jump base .indirect place target = .ok bytes ∧
      (isa.fillIndirect code place (address base target)).toList = front ++ bytes ++ back := by
  subst hplace
  cases isa with
  | x64 =>
    refine ⟨_, rfl, ?_⟩
    have hbytes (value : UInt64) : X64.encodeAll (X64.viaRegister false value) =
        [0x49, 0xbb] ++ doubleWordBytes value ++ (X64.Inst.jumpReg X64.r11).encode := by
      simp [X64.encodeAll, X64.viaRegister, X64.Inst.encode]
      rfl
    rw [openJump, hbytes, ← List.append_assoc, ← List.append_assoc,
      List.append_assoc (_ ++ _)] at hcode
    rw [fillIndirect, toList_patch (by simp) hcode (by simp), hbytes]
    simp only [List.append_assoc]
  | aarch64 =>
    refine ⟨_, rfl, ?_⟩
    rw [openJump, encodeAll_viaRegister, ← List.append_assoc, List.append_assoc (_ ++ _)] at hcode
    rw [toList_fillMoves _ _ hcode, encodeAll_viaRegister]
    simp only [List.append_assoc]

end Isa

/-! ## Pieces of code -/

/-- A part of code in the making. -/
inductive Piece where
  | bytes (bs : List UInt8)
  /-- A jump whose label was not bound when it was made. -/
  | hole (label : Nat) (form : BranchForm)

namespace Piece

/-- The bytes of pieces before they are filled. -/
def code (isa : Isa) : List Piece → List UInt8
  | [] => []
  | bytes bs :: ps => bs ++ code isa ps
  | hole _ form :: ps => isa.openJump form ++ code isa ps

/-- The fixups of pieces from a place on. -/
def fixups (isa : Isa) (place : Nat) : List Piece → List Fixup
  | [] => []
  | bytes bs :: ps => fixups isa (place + bs.length) ps
  | hole label form :: ps => ⟨place, label, form⟩ :: fixups isa (place + isa.jumpBytes form) ps

variable {isa : Isa} {ps qs : List Piece} {place : Nat}

lemma code_append : code isa (ps ++ qs) = code isa ps ++ code isa qs := by
  induction ps with
  | nil => rfl
  | cons p ps ih => cases p <;> simp [code, ih]

lemma fixups_append : fixups isa place (ps ++ qs) =
    fixups isa place ps ++ fixups isa (place + (code isa ps).length) qs := by
  induction ps generalizing place with
  | nil => rfl
  | cons p ps ih =>
    cases p <;> simp [fixups, code, ih, Isa.length_openJump, Nat.add_assoc]

end Piece

namespace Assembler

variable {a b : Assembler} {ps qs : List Piece} {place label : Nat} {form : BranchForm}
  {c : List UInt8}

/-- The bytes of pieces from a place on when the jumps in them are those to the bound places of
their labels. -/
inductive Filled (a : Assembler) : Nat → List Piece → List UInt8 → Prop
  | nil {place : Nat} : Filled a place [] []
  | bytes {place : Nat} {bs rest : List UInt8} {ps : List Piece}
      (filled : Filled a (place + bs.length) ps rest) :
      Filled a place (.bytes bs :: ps) (bs ++ rest)
  | hole {place label target : Nat} {form : BranchForm} {bs rest : List UInt8} {ps : List Piece}
      (bound : a.labelOffset? label = some target)
      (jump : a.isa.jump a.base form place target = .ok bs)
      (filled : Filled a (place + a.isa.jumpBytes form) ps rest) :
      Filled a place (.hole label form :: ps) (bs ++ rest)

lemma Filled.length_eq (h : a.Filled place ps c) : c.length = (Piece.code a.isa ps).length := by
  induction h with
  | nil => rfl
  | bytes _ ih => simp [Piece.code, ih]
  | hole _ hjump _ ih => simp [Piece.code, ih, Isa.length_jump hjump, Isa.length_openJump]

lemma filled_append : a.Filled place (ps ++ qs) c →
    ∃ c₁ c₂, c = c₁ ++ c₂ ∧ a.Filled place ps c₁ ∧
      a.Filled (place + (Piece.code a.isa ps).length) qs c₂ := by
  induction ps generalizing place c with
  | nil => exact fun h => ⟨[], c, rfl, .nil, h⟩
  | cons p ps ih =>
    intro h
    cases h with
    | bytes h =>
      obtain ⟨c₁, c₂, rfl, h₁, h₂⟩ := ih h
      refine ⟨_, c₂, (List.append_assoc _ _ _).symm, .bytes h₁, ?_⟩
      rwa [Piece.code, List.length_append, ← Nat.add_assoc]
    | hole hbound hjump h =>
      obtain ⟨c₁, c₂, rfl, h₁, h₂⟩ := ih h
      refine ⟨_, c₂, (List.append_assoc _ _ _).symm, .hole hbound hjump h₁, ?_⟩
      rwa [Piece.code, List.length_append, Isa.length_openJump, ← Nat.add_assoc]

/-- The code and fixups of an assembler are those of some pieces. -/
structure Made (a : Assembler) (ps : List Piece) : Prop where
  code : a.code.toList = Piece.code a.isa ps
  fixups : a.fixups.toList = Piece.fixups a.isa 0 ps

lemma Made.offset_eq (h : a.Made ps) : a.offset = (Piece.code a.isa ps).length := by
  rw [offset, ← Array.length_toList, h.code]

/-! ## Finishing -/

lemma toList_fill {f : Fixup} {code code' : Array UInt8} {front back : List UInt8}
    (hplace : f.place = front.length)
    (hcode : code.toList = front ++ a.isa.openJump f.form ++ back)
    (h : a.fill code f = .ok code') :
    ∃ target bytes, a.labelOffset? f.label = some target ∧
      a.isa.jump a.base f.form f.place target = .ok bytes ∧
        code'.toList = front ++ bytes ++ back := by
  unfold fill at h
  split at h
  · simp at h
  · rename_i target htarget
    obtain ⟨place, label, form⟩ := f
    cases form with
    | direct =>
      obtain ⟨bytes, hbytes, hcode'⟩ := Isa.toList_fillDirect hplace hcode h
      exact ⟨target, bytes, htarget, hbytes, hcode'⟩
    | indirect =>
      cases h
      obtain ⟨bytes, hbytes, hcode'⟩ := Isa.toList_fillIndirect hplace hcode
      exact ⟨target, bytes, htarget, hbytes, hcode'⟩

/-- Filling the fixups of pieces behind bytes that are done. -/
lemma filled_of_foldlM {code code' : Array UInt8} {front : List UInt8}
    (hcode : code.toList = front ++ Piece.code a.isa ps)
    (h : (Piece.fixups a.isa front.length ps).foldlM a.fill code = .ok code') :
    ∃ rest, code'.toList = front ++ rest ∧ a.Filled front.length ps rest := by
  induction ps generalizing code front with
  | nil =>
    cases h
    exact ⟨[], hcode, .nil⟩
  | cons p ps ih =>
    cases p with
    | bytes bs =>
      rw [Piece.code, ← List.append_assoc] at hcode
      rw [Piece.fixups, ← List.length_append] at h
      obtain ⟨rest, hrest, hfilled⟩ := ih hcode h
      rw [List.length_append] at hfilled
      exact ⟨bs ++ rest, by rw [hrest, List.append_assoc], .bytes hfilled⟩
    | hole label form =>
      rw [Piece.code, ← List.append_assoc] at hcode
      rw [Piece.fixups, List.foldlM_cons] at h
      obtain ⟨next, hfill, h⟩ := Except.bind_eq_ok_iff.mp h
      obtain ⟨target, bytes, htarget, hjump, hnext⟩ := toList_fill rfl hcode hfill
      have hlength : front.length + a.isa.jumpBytes form = (front ++ bytes).length := by
        rw [List.length_append, Isa.length_jump hjump]
      rw [hlength] at h
      obtain ⟨rest, hrest, hfilled⟩ := ih hnext h
      rw [← hlength] at hfilled
      exact ⟨bytes ++ rest, by rw [hrest, List.append_assoc], .hole htarget hjump hfilled⟩

/-- Finishing puts the jump to its label in the place of every open jump. -/
theorem filled_of_finish {code : Array UInt8} (hmade : a.Made ps) (h : a.finish = .ok code) :
    a.Filled 0 ps code.toList := by
  rw [finish, hmade.fixups] at h
  obtain ⟨rest, hrest, hfilled⟩ := @filled_of_foldlM a ps a.code code [] hmade.code h
  rwa [hrest]

/-- Finishing leaves as many bytes as there are. -/
lemma size_of_finish {code : Array UInt8} (hmade : a.Made ps) (h : a.finish = .ok code) :
    code.size = a.offset := by
  rw [← Array.length_toList, (filled_of_finish hmade h).length_eq, ← hmade.offset_eq]

end Assembler

end TreeCode
