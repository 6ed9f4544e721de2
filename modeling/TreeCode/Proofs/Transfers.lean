import TreeCode.Proofs.Finishing

/-!
# Transfers go where they say

Any sequence of steps, some of which may fail, after which the code can be finished: every jump,
conditional branch and call among them that did not fail passes control to the place where its
label is bound, or to its address.  Its bytes are those that it would have had if the label had been
bound before it.
-/

namespace TreeCode

/-- Whether the byte at an index of the code belongs to a field that a fixup fills: the displacement
of a direct jump of x86-64 or the address it moves into a register, the word of a direct jump of
AArch64, or the bytes that the fields of its four halfwords reach into. -/
def Fixup.covers (isa : Isa) (f : Fixup) (i : Nat) : Prop :=
  match isa, f.form with
  | .x64, .direct => f.place + 1 ≤ i ∧ i < f.place + 5
  | .x64, .indirect => f.place + 2 ≤ i ∧ i < f.place + 10
  | .aarch64, .direct => f.place ≤ i ∧ i < f.place + 4
  | .aarch64, .indirect => ∃ k < 4, f.place + 4 * k ≤ i ∧ i < f.place + 4 * k + 3

namespace Isa

/-- The highest byte of a word is above the fields of its instruction. -/
lemma getElem?_wordBytes_eq {w w' : UInt32} (h : w.toNat / 2 ^ 24 = w'.toNat / 2 ^ 24) :
    (wordBytes w)[3]? = (wordBytes w')[3]? := by
  have htop (w : UInt32) : (wordBytes w)[3]? = some (UInt8.ofNat (w.toNat / 2 ^ 24)) := by
    rw [show 2 ^ 24 = 256 * 256 * 256 from rfl, ← Nat.div_div_eq_div_mul, ← Nat.div_div_eq_div_mul]
    rfl
  rw [htop, htop, h]

lemma getElem?_append_word {w w' : UInt32} {l l' : List UInt8} {k : Nat}
    (hword : k < 4 → k = 3 ∧ w.toNat / 2 ^ 24 = w'.toNat / 2 ^ 24)
    (hrest : 4 ≤ k → l[k - 4]? = l'[k - 4]?) :
    (wordBytes w ++ l)[k]? = (wordBytes w' ++ l')[k]? := by
  by_cases hk : k < 4
  · obtain ⟨rfl, htop⟩ := hword hk
    rw [List.getElem?_append_left (by simp), List.getElem?_append_left (by simp)]
    exact getElem?_wordBytes_eq htop
  · rw [List.getElem?_append_right (by simpa using hk),
      List.getElem?_append_right (by simpa using hk), length_wordBytes, length_wordBytes]
    exact hrest (by omega)

lemma toNat_movz_div (v v' : UInt64) :
    (A64.Inst.movz true 0 (A64.halfword v 0) A64.x16).encode.toNat / 2 ^ 24 =
      (A64.Inst.movz true 0 (A64.halfword v' 0) A64.x16).encode.toNat / 2 ^ 24 := by
  have h := @A64.toNat_halfword_lt v 0 (by decide)
  have h' := @A64.toNat_halfword_lt v' 0 (by decide)
  rw [A64.toNat_encode_movz (by decide) h, A64.toNat_encode_movz (by decide) h']
  omega

lemma toNat_movk_div (v v' : UInt64) {half : Nat} (hhalf : half < 4) :
    (A64.Inst.movk true half (A64.halfword v half) A64.x16).encode.toNat / 2 ^ 24 =
      (A64.Inst.movk true half (A64.halfword v' half) A64.x16).encode.toNat / 2 ^ 24 := by
  have h := @A64.toNat_halfword_lt v half hhalf
  have h' := @A64.toNat_halfword_lt v' half hhalf
  rw [A64.toNat_encode_movk hhalf h, A64.toNat_encode_movk hhalf h']
  omega

/-- The bytes of a jump outside its fields are the same for every target. -/
lemma getElem?_jump_eq {isa : Isa} {base : UInt64} {form : BranchForm} {place target k : Nat}
    {label : Nat} {bs : List UInt8} (h : isa.jump base form place target = .ok bs)
    (hk : ¬ (⟨place, label, form⟩ : Fixup).covers isa (place + k)) :
    bs[k]? = (isa.openJump form)[k]? := by
  by_cases hlength : isa.jumpBytes form ≤ k
  · rw [List.getElem?_eq_none (by rwa [length_jump h]),
      List.getElem?_eq_none (by rwa [length_openJump])]
  cases isa with
  | x64 =>
    cases form with
    | direct =>
      obtain ⟨d, -, h⟩ := Except.bind_eq_ok_iff.mp h
      cases h
      simp only [Fixup.covers, jumpBytes, X64.directBytes] at hk hlength
      obtain rfl : k = 0 := by omega
      rfl
    | indirect =>
      cases h
      simp only [Fixup.covers, jumpBytes, X64.indirectBytes] at hk hlength
      have hplaces : k = 0 ∨ k = 1 ∨ k = 10 ∨ k = 11 ∨ k = 12 := by omega
      rcases hplaces with rfl | rfl | rfl | rfl | rfl <;> rfl
  | aarch64 =>
    cases form with
    | direct =>
      simp only [Fixup.covers, jumpBytes, A64.directBytes] at hk hlength
      omega
    | indirect =>
      cases h
      simp only [Fixup.covers, not_exists, not_and] at hk
      have h₀ := hk 0
      have h₁ := hk 1
      have h₂ := hk 2
      have h₃ := hk 3
      rw [openJump, encodeAll_viaRegister, encodeAll_viaRegister, encodeAll_movAbsolute,
        encodeAll_movAbsolute]
      simp only [List.append_assoc]
      refine getElem?_append_word (fun _ => ⟨by omega, toNat_movz_div _ _⟩) fun _ => ?_
      refine getElem?_append_word (fun _ => ⟨by omega, toNat_movk_div _ _ (by decide)⟩) fun _ => ?_
      refine getElem?_append_word (fun _ => ⟨by omega, toNat_movk_div _ _ (by decide)⟩) fun _ => ?_
      refine getElem?_append_word (fun _ => ⟨by omega, toNat_movk_div _ _ (by decide)⟩) fun _ => ?_
      rfl

end Isa

namespace Assembler

variable {a b d : Assembler} {ps : List Piece} {place label : Nat} {form : BranchForm}
  {c : List UInt8}

/-- Outside the fields of the fixups, filled code is as it was. -/
lemma Filled.getElem?_eq {code : List UInt8} (h : a.Filled place ps code) {k : Nat}
    (hk : ∀ f ∈ Piece.fixups a.isa place ps, ¬ f.covers a.isa (place + k)) :
    code[k]? = (Piece.code a.isa ps)[k]? := by
  induction h generalizing k with
  | nil => rfl
  | @bytes place bs rest ps _ ih =>
    rw [Piece.code]
    by_cases hlength : k < bs.length
    · rw [List.getElem?_append_left hlength, List.getElem?_append_left hlength]
    · rw [List.getElem?_append_right (by omega), List.getElem?_append_right (by omega)]
      refine ih fun f hf => ?_
      have hplace : place + bs.length + (k - bs.length) = place + k := by omega
      rw [hplace]
      exact hk f hf
  | @hole place label target form bs rest ps _ hjump _ ih =>
    have hbs := Isa.length_jump hjump
    rw [Piece.fixups, List.forall_mem_cons] at hk
    rw [Piece.code]
    by_cases hlength : k < bs.length
    · rw [List.getElem?_append_left hlength,
        List.getElem?_append_left (by rwa [Isa.length_openJump, ← hbs])]
      exact Isa.getElem?_jump_eq hjump hk.1
    · rw [List.getElem?_append_right (by omega),
        List.getElem?_append_right (by rw [Isa.length_openJump]; omega), Isa.length_openJump, hbs]
      refine ih fun f hf => ?_
      have hplace : place + a.isa.jumpBytes form + (k - a.isa.jumpBytes form) = place + k := by
        omega
      rw [hplace]
      exact hk.2 f hf

/-! ## Steps -/

@[simp] lemma append_isa (a : Assembler) (bs : List UInt8) : (a.append bs).isa = a.isa := rfl

@[simp] lemma append_base (a : Assembler) (bs : List UInt8) : (a.append bs).base = a.base := rfl

@[simp] lemma append_fixups (a : Assembler) (bs : List UInt8) :
    (a.append bs).fixups = a.fixups := rfl

lemma toList_append (a : Assembler) (bs : List UInt8) :
    (a.append bs).code.toList = a.code.toList ++ bs := by
  have hpush (code : Array UInt8) : (bs.foldl Array.push code).toList = code.toList ++ bs := by
    induction bs generalizing code with
    | nil => simp
    | cons b bs ih => rw [List.foldl_cons, ih, Array.toList_push, List.append_assoc]; rfl
  exact hpush a.code

lemma offset_append (a : Assembler) (bs : List UInt8) :
    (a.append bs).offset = a.offset + bs.length := by
  rw [offset, offset, ← Array.length_toList, ← Array.length_toList, toList_append,
    List.length_append]

/-- An assembler that has gone on from another one: labels stay where they are bound. -/
structure Extends (a b : Assembler) : Prop where
  isa : b.isa = a.isa
  base : b.base = a.base
  labels : ∀ label target, a.labelOffset? label = some target → b.labelOffset? label = some target

lemma Extends.refl (a : Assembler) : a.Extends a := ⟨rfl, rfl, fun _ _ h => h⟩

lemma Extends.trans (hab : a.Extends b) (hbd : b.Extends d) : a.Extends d :=
  ⟨hbd.isa.trans hab.isa, hbd.base.trans hab.base,
    fun label target h => hbd.labels label target (hab.labels label target h)⟩

lemma extends_append (a : Assembler) (bs : List UInt8) : a.Extends (a.append bs) :=
  ⟨rfl, rfl, fun _ _ h => h⟩

lemma Made.append (h : a.Made ps) (bs : List UInt8) : (a.append bs).Made (ps ++ [.bytes bs]) := by
  refine ⟨?_, ?_⟩
  · rw [toList_append, append_isa, Piece.code_append, h.code]
    simp [Piece.code]
  · rw [append_fixups, append_isa, Piece.fixups_append, h.fixups]
    simp [Piece.fixups]

/-- A jump is a piece of its own.  Once it is filled it is the jump to its label. -/
lemma exists_made_jump (h : a.Made ps) (hjump : a.jump label form = .ok b) :
    ∃ p, b.Made (ps ++ [p]) ∧ a.Extends b ∧ ∀ d c, b.Extends d → d.Filled a.offset [p] c →
      ∃ target, d.labelOffset? label = some target ∧
        d.isa.jump d.base form a.offset target = .ok c := by
  unfold jump at hjump
  split at hjump
  · rename_i target htarget
    obtain ⟨bs, hbs, hjump⟩ := Except.bind_eq_ok_iff.mp hjump
    cases hjump
    refine ⟨.bytes bs, h.append bs, extends_append a bs, fun d c hd hfilled => ?_⟩
    refine ⟨target, hd.labels label target htarget, ?_⟩
    cases hfilled with
    | bytes hnil =>
      cases hnil
      rw [hd.isa, hd.base, List.append_nil]
      exact hbs
  · cases hjump
    refine ⟨.hole label form, ⟨?_, ?_⟩, ⟨rfl, rfl, fun _ _ h => h⟩, fun d c hd hfilled => ?_⟩
    · simp only [toList_append, append_isa, Piece.code_append, h.code]
      simp [Piece.code]
    · simp only [append_fixups, append_isa, Array.toList_push, Piece.fixups_append, h.fixups,
        Nat.zero_add, ← h.offset_eq]
      simp [Piece.fixups]
    · cases hfilled with
      | hole hbound hfill hnil =>
        cases hnil
        rw [List.append_nil]
        exact ⟨_, hbound, hfill⟩

/-- What the bytes of a transfer at a place are, for the places where the labels are bound. -/
def Encodes (a : Assembler) (place : Nat) (form : BranchForm) (bytes : List UInt8) :
    Transfer → Prop
  | .jump label => ∃ target, a.labelOffset? label = some target ∧
      a.isa.jump a.base form place target = .ok bytes
  | .branchIf c label => ∃ target rest, a.labelOffset? label = some target ∧
      a.isa.jump a.base form (place + a.isa.conditionBytes) target = .ok rest ∧
        bytes = a.isa.skip c form ++ rest
  | .call target => a.isa.call a.base form place target = .ok bytes

/-- A transfer that does not fail is pieces of its own.  Once they are filled they encode it. -/
lemma exists_made_transfer {t : Transfer} (h : a.Made ps) (ht : (a.transfer t form).2 = none) :
    ∃ qs, (a.transfer t form).1.Made (ps ++ qs) ∧ a.Extends (a.transfer t form).1 ∧
      ∀ d c, (a.transfer t form).1.Extends d → d.Filled a.offset qs c →
        d.Encodes a.offset form c t := by
  cases t with
  | jump label =>
    cases hjump : a.jump label form with
    | error fault => simp [transfer, hjump] at ht
    | ok b =>
      simp only [transfer, hjump]
      obtain ⟨p, hmade, hextends, hfilled⟩ := exists_made_jump h hjump
      exact ⟨[p], hmade, hextends, hfilled⟩
  | branchIf cond label =>
    cases hjump : (a.append (a.isa.skip cond form)).jump label form with
    | error fault => simp [transfer, hjump] at ht
    | ok b =>
      simp only [transfer, hjump]
      obtain ⟨p, hmade, hextends, hfilled⟩ := exists_made_jump (h.append _) hjump
      rw [List.append_assoc] at hmade
      refine ⟨_, hmade, (extends_append a _).trans hextends, fun d c hd h => ?_⟩
      rw [offset_append, Isa.length_skip] at hfilled
      have hisa : d.isa = a.isa := hd.isa.trans hextends.isa
      cases h with
      | @bytes _ _ rest _ h =>
        rw [Isa.length_skip] at h
        obtain ⟨target, htarget, hbytes⟩ := hfilled d rest hd h
        exact ⟨target, rest, htarget, by rwa [hisa] at hbytes ⊢, by rw [hisa]⟩
  | call target =>
    cases hcall : a.isa.call a.base form a.offset target with
    | error fault => simp [transfer, hcall, Except.map] at ht
    | ok bs =>
      simp only [transfer, hcall, Except.map]
      refine ⟨_, h.append bs, extends_append a bs, fun d c hd h => ?_⟩
      cases h with
      | bytes h =>
        cases h
        rw [Encodes, hd.isa, hd.base, List.append_nil]
        exact hcall

lemma extends_newLabel (a : Assembler) : a.Extends { a with labels := a.labels.push none } := by
  refine ⟨rfl, rfl, fun label target h => ?_⟩
  unfold labelOffset? at h ⊢
  obtain ⟨hlt, -⟩ := Array.getElem?_eq_some_iff.mp (Option.join_eq_some_iff.mp h)
  rwa [Array.getElem?_push_lt hlt, ← Array.getElem?_eq_getElem hlt]

lemma extends_bind (hbind : a.bind label = .ok b) : a.Extends b := by
  unfold bind at hbind
  split at hbind
  · simp at hbind
  · simp at hbind
  · rename_i hunbound
    cases hbind
    refine ⟨rfl, rfl, fun other target h => ?_⟩
    have hne : label ≠ other := by
      rintro rfl
      simp [labelOffset?, hunbound] at h
    unfold labelOffset? at h ⊢
    rwa [Array.getElem?_setIfInBounds_ne hne]

/-- Binding a label leaves the pieces. -/
lemma made_bind (h : a.Made ps) (hbind : a.bind label = .ok b) : b.Made ps := by
  unfold bind at hbind
  split at hbind <;> cases hbind
  exact ⟨h.code, h.fixups⟩

/-- Every step puts pieces behind those that are there, also if it fails. -/
lemma exists_made_step (h : a.Made ps) (s : Step) :
    ∃ qs, (a.step s).1.Made (ps ++ qs) ∧ a.Extends (a.step s).1 := by
  cases s with
  | newLabel =>
    exact ⟨[], by rw [List.append_nil]; exact ⟨h.code, h.fixups⟩, extends_newLabel a⟩
  | instr i => exact ⟨_, h.append _, extends_append a _⟩
  | bind label =>
    rw [step]
    cases hbind : a.bind label with
    | error fault => exact ⟨[], by rwa [List.append_nil], Extends.refl a⟩
    | ok b => exact ⟨[], by rw [List.append_nil]; exact made_bind h hbind, extends_bind hbind⟩
  | transfer t form =>
    rw [step]
    cases ht : (a.transfer t form).2 with
    | none =>
      obtain ⟨qs, hmade, hextends, -⟩ := exists_made_transfer h ht
      exact ⟨qs, hmade, hextends⟩
    | some e =>
      -- What a failed transfer leaves behind is the branch around a jump, if anything.
      cases t with
      | jump label =>
        cases hjump : a.jump label form with
        | error fault =>
          simp only [transfer, hjump]
          exact ⟨[], by rwa [List.append_nil], Extends.refl a⟩
        | ok b => simp [transfer, hjump] at ht
      | branchIf c label =>
        cases hjump : (a.append (a.isa.skip c form)).jump label form with
        | error fault =>
          simp only [transfer, hjump]
          exact ⟨_, h.append _, extends_append a _⟩
        | ok b => simp [transfer, hjump] at ht
      | call target =>
        cases hcall : a.isa.call a.base form a.offset target with
        | error fault =>
          simp only [transfer, hcall, Except.map]
          exact ⟨[], by rwa [List.append_nil], Extends.refl a⟩
        | ok bs => simp [transfer, hcall, Except.map] at ht

/-! ## Runs -/

/-- The assembler after a sequence of steps, whether they fail or not. -/
def run (a : Assembler) (steps : List Step) : Assembler :=
  steps.foldl (fun a s => (a.step s).1) a

lemma run_append (a : Assembler) (s t : List Step) : a.run (s ++ t) = (a.run s).run t :=
  List.foldl_append

lemma exists_made_run (h : a.Made ps) (steps : List Step) :
    ∃ qs, (a.run steps).Made (ps ++ qs) ∧ a.Extends (a.run steps) := by
  induction steps generalizing a ps with
  | nil => exact ⟨[], by simpa [run] using h, Extends.refl a⟩
  | cons s steps ih =>
    obtain ⟨qs, hmade, hextends⟩ := exists_made_step h s
    obtain ⟨rs, hmade', hextends'⟩ := ih hmade
    rw [List.append_assoc] at hmade'
    exact ⟨qs ++ rs, hmade', hextends.trans hextends'⟩

lemma made_new (isa : Isa) (base : UInt64) : (new isa base).Made [] := ⟨rfl, rfl⟩

/-- Where control goes from the bytes of a transfer at a place: to the place where the label is
bound, to the address that is called, or, if the condition of a conditional branch does not hold,
behind the jump. -/
def Lands (a : Assembler) (place : Nat) (form : BranchForm) (bytes : List UInt8) :
    Transfer → Prop
  | .jump label => ∃ target, a.labelOffset? label = some target ∧ ∀ holds registers,
      a.isa.control? holds 6 registers (Isa.address a.base place) bytes =
        some (.jump (Isa.address a.base target))
  | .branchIf c label => ∃ target, a.labelOffset? label = some target ∧ ∀ holds registers,
      holds c.invert = !holds c →
        a.isa.control? holds 6 registers (Isa.address a.base place) bytes =
          some (.jump (Isa.address a.base
            (if holds c then target else place + a.isa.conditionBytes + a.isa.jumpBytes form)))
  | .call target => ∀ holds registers,
      a.isa.control? holds 6 registers (Isa.address a.base place) bytes =
        some (.call target (Isa.address a.base (place + a.isa.jumpBytes form)))

lemma Encodes.lands {t : Transfer} (h : a.Encodes place form c t) (rest : List UInt8) :
    a.Lands place form (c ++ rest) t := by
  cases t with
  | jump label =>
    obtain ⟨target, htarget, hjump⟩ := h
    exact ⟨target, htarget, fun _ _ => Isa.control?_jump hjump rest⟩
  | branchIf cond label =>
    obtain ⟨target, bs, htarget, hjump, rfl⟩ := h
    refine ⟨target, htarget, fun holds registers hholds => ?_⟩
    rw [List.append_assoc, Isa.control?_skip, Isa.control?_jump hjump, hholds]
    cases holds cond <;> rfl
  | call target => exact fun _ _ => Isa.control?_call h rest

/-- **Transfers go where they say.** -/
theorem finish_lands {isa : Isa} {base : UInt64} {steps : List Step} {code : Array UInt8}
    (h : ((new isa base).run steps).finish = .ok code) :
    (∀ before t form after, steps = before ++ .transfer t form :: after →
      (((new isa base).run before).step (.transfer t form)).2 = none →
        ∃ bytes,
          ((new isa base).run steps).Encodes ((new isa base).run before).offset form bytes t ∧
          bytes <+: code.toList.drop ((new isa base).run before).offset ∧
            ((new isa base).run steps).Lands ((new isa base).run before).offset form
              (code.toList.drop ((new isa base).run before).offset) t) ∧
      code.size = ((new isa base).run steps).code.size ∧
        ∀ i, (∀ f ∈ ((new isa base).run steps).fixups, ¬ f.covers isa i) →
          code[i]? = ((new isa base).run steps).code[i]? := by
  obtain ⟨ps, hmade, hnew⟩ := exists_made_run (made_new isa base) steps
  have hfilled := filled_of_finish hmade h
  refine ⟨?_, ?_, fun i hi => ?_⟩
  · rintro before t form after rfl hstep
    obtain ⟨qs, hbefore, -⟩ := exists_made_run (made_new isa base) before
    obtain ⟨rs, htransfer, hextends, hencodes⟩ := exists_made_transfer hbefore hstep
    obtain ⟨us, hafter, hextends'⟩ := exists_made_run htransfer after
    have hrun : (new isa base).run (before ++ .transfer t form :: after) =
        ((((new isa base).run before).transfer t form).1).run after := run_append _ _ _
    rw [hrun] at h ⊢
    -- The finished code is that of the steps before, of the transfer and of the steps behind it.
    obtain ⟨_, back, hcode, hfront, -⟩ := filled_append (filled_of_finish hafter h)
    obtain ⟨front, bytes, rfl, hfront, hbytes⟩ := filled_append hfront
    have hisa := (hextends.trans hextends').isa
    have hlength : front.length = ((new isa base).run before).offset := by
      rw [hfront.length_eq, hisa, hbefore.offset_eq]
    rw [Nat.zero_add, hisa, ← hbefore.offset_eq] at hbytes
    have hdrop : code.toList.drop ((new isa base).run before).offset = bytes ++ back := by
      rw [hcode, List.append_assoc, ← hlength, List.drop_left]
    have hencoded := hencodes _ bytes hextends' hbytes
    rw [hdrop]
    exact ⟨bytes, hencoded, List.prefix_append _ _, hencoded.lands back⟩
  · rw [← Array.length_toList, hfilled.length_eq, ← hmade.code, Array.length_toList]
  · rw [← Array.getElem?_toList, ← Array.getElem?_toList, hmade.code]
    refine hfilled.getElem?_eq fun f hf => ?_
    rw [Nat.zero_add, hnew.isa]
    rw [← hmade.fixups, Array.mem_toList_iff] at hf
    exact hi f hf

/-- A conditional branch to a label that is bound behind it. -/
def forward : List Step := [.newLabel, .transfer (.branchIf .lt 0) .indirect, .bind 0]

/-- The branch forward lands behind itself, taken or not. -/
theorem finish_lands_forward :
    ∃ code, ((new .aarch64 0x1000).run forward).finish = .ok code ∧
      ((new .aarch64 0x1000).run forward).Lands 0 .indirect code.toList (.branchIf .lt 0) := by
  have hfinish : ∃ code, ((new .aarch64 0x1000).run forward).finish = .ok code := ⟨_, rfl⟩
  obtain ⟨code, hcode⟩ := hfinish
  obtain ⟨bytes, -, -, hlands⟩ :=
    (finish_lands hcode).1 [.newLabel] (.branchIf .lt 0) .indirect [.bind 0] rfl rfl
  exact ⟨code, hcode, hlands⟩

end Assembler

end TreeCode
