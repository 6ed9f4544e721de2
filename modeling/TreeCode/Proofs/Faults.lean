import TreeCode.Proofs.Fixups

/-!
# Where encoding fails

What the instruction sets cannot encode, of all that assembling a parsed method may ask for, is a
frame of 2^31 bytes, on AArch64 a direct call to an address that is not a whole number of words
away, and a jump forward over more code than there is room for.  Everything else has an encoding:
the operands of instructions (`Emits`), labels, jumps to labels, and all other calls.
-/

namespace TreeCode

open Isa (address)

/-! ## Calls -/

/-- The distance of two addresses as a signed number, if they are near each other. -/
lemma toInt_toInt64_sub {x y : UInt64} (hlow : -2 ^ 63 ≤ (x.toNat : Int) - y.toNat)
    (hhigh : (x.toNat : Int) - y.toNat < 2 ^ 63) :
    (x - y).toInt64.toInt = (x.toNat : Int) - y.toNat := by
  have hsub : x - y = UInt64.ofInt ((x.toNat : Int) - y.toNat) := by
    rw [ofInt_sub, ofInt_natCast, ofInt_natCast, UInt64.ofNat_toNat, UInt64.ofNat_toNat]
  rw [hsub, Isa.toInt_toInt64_ofInt hlow hhigh]

/-- On x86-64 every distance that the limits let through has an encoding. -/
lemma X64.exists_distance {here target : UInt64}
    (h : Isa.x64.branchLimits.form target here = .direct) :
    ∃ d, distance here target = .ok d := by
  obtain ⟨hforward, hbackward⟩ := BranchLimits.form_eq_direct_iff.mp h
  have hf : (Isa.x64.branchLimits.forward.toNat : Int) = 2147483652 := rfl
  have hb : (Isa.x64.branchLimits.backward.toNat : Int) = 2147483643 := rfl
  have hnext : (target - (here + 5)).toInt64.toInt = (target.toNat : Int) - here.toNat - 5 := by
    have h5 : UInt64.ofInt 5 = 5 := rfl
    have hsub : target - (here + 5) = UInt64.ofInt ((target.toNat : Int) - here.toNat - 5) := by
      rw [ofInt_sub, ofInt_sub, ofInt_natCast, ofInt_natCast, UInt64.ofNat_toNat,
        UInt64.ofNat_toNat, h5]
      grind
    rw [hsub, Isa.toInt_toInt64_ofInt (by omega) (by omega)]
  refine ⟨Int32.ofInt ((target.toNat : Int) - here.toNat - 5), ?_⟩
  simp only [distance, hnext]
  rw [if_pos ⟨by omega, by omega⟩]

/-- On AArch64 a distance that the limits let through has an encoding if it is a number of words. -/
lemma A64.words_eq_error {here target : UInt64} {fault : EncodingFault}
    (hform : Isa.aarch64.branchLimits.form target here = .direct)
    (h : words (target.toInt64 - here.toInt64) = .error fault) :
    ¬ (4 : Int) ∣ (target.toNat : Int) - here.toNat ∧ fault = .branchOffset (target - here) := by
  obtain ⟨hforward, hbackward⟩ := BranchLimits.form_eq_direct_iff.mp hform
  have hf : (Isa.aarch64.branchLimits.forward.toNat : Int) = 134217724 := rfl
  have hb : (Isa.aarch64.branchLimits.backward.toNat : Int) = 134217728 := rfl
  have hdelta : (target.toInt64 - here.toInt64).toInt = (target.toNat : Int) - here.toNat := by
    rw [← UInt64.toInt64_sub]
    exact toInt_toInt64_sub (by omega) (by omega)
  simp only [words, hdelta] at h
  split at h
  · cases h
  · rename_i hrange
    refine ⟨fun hdvd => hrange ?_, ?_⟩
    · have htdiv := Int.tdiv_eq_ediv_of_dvd hdvd
      exact ⟨Int.tmod_eq_zero_of_dvd hdvd, by omega, by omega⟩
    · rw [← Except.error.inj h, ← UInt64.toInt64_sub, UInt64.toUInt64_toInt64]

/-- A call has an encoding in its form, except on AArch64, where a direct one has none if its target
is not a whole number of words away. -/
lemma Isa.call_eq_error {isa : Isa} {base target : UInt64} {place : Nat} {form : BranchForm}
    {fault : EncodingFault} (hform : isa.branchLimits.form target (address base place) = form)
    (h : isa.call base form place target = .error fault) :
    isa = .aarch64 ∧ form = .direct ∧
      ¬ (4 : Int) ∣ (target.toNat : Int) - (address base place).toNat ∧
        fault = .branchOffset (target - address base place) := by
  cases form with
  | indirect => cases isa <;> cases h
  | direct =>
    cases isa with
    | x64 =>
      obtain ⟨d, hd⟩ := X64.exists_distance hform
      rw [call, hd] at h
      cases h
    | aarch64 =>
      rcases Except.bind_eq_error_iff.mp h with h | ⟨w, -, h⟩
      · exact ⟨rfl, rfl, A64.words_eq_error hform h⟩
      · cases h

/-! ## Frames -/

/-- Beyond the encoding of a prologue are only frames of 2^31 bytes and more on x86-64. -/
lemma Isa.fault_of_prologue {isa : Isa} {frame : UInt32} {fault : EncodingFault}
    (h : (isa.emission (.prologue frame)).failure = some (.encoding fault)) :
    isa = .x64 ∧ 2 ^ 31 ≤ frame.toNat := by
  cases isa with
  | x64 =>
    refine ⟨rfl, ?_⟩
    by_contra hsmall
    have hroom : ∃ room, X64.frameRoom frame = .ok room := by
      unfold X64.frameRoom
      split
      · exact ⟨_, rfl⟩
      · have hlt : frame < 0x80000000 := UInt32.lt_iff_toNat_lt.mpr (Nat.lt_of_not_le hsmall)
        exact ⟨_, if_pos hlt⟩
    obtain ⟨room, hroom⟩ := hroom
    simp [emission, hroom] at h
  | aarch64 =>
    by_cases hframe : A64.maxFrame < frame
    · simp [emission, A64.select, hframe] at h
    · simp [emission, A64.select, hframe] at h

/-! ## Jumps and labels -/

namespace Assembler

variable {a : Assembler} {limit labels label : Nat} {form : BranchForm}

/-- A jump whose label is bound has an encoding in the form that is chosen for the two places. -/
lemma exists_jump_of_orderly (h : a.Orderly limit labels)
    (hplace : a.base.toNat + a.offset < wordRange)
    (hform : ∀ target, a.labelOffset? label = some target → a.base.toNat + target < wordRange ∧
      form = a.isa.branchLimits.form (address a.base target) (address a.base a.offset)) :
    ∃ b, a.jump label form = .ok b := by
  cases htarget : a.labelOffset? label with
  | none => exact ⟨_, by rw [jump, htarget]⟩
  | some target =>
    obtain ⟨hrange, hform⟩ := hform target htarget
    have hbytes : ∃ bytes, a.isa.jump a.base form a.offset target = .ok bytes := by
      cases form with
      | indirect => cases a.isa <;> exact ⟨_, rfl⟩
      | direct =>
        exact Isa.exists_jump (Isa.spans_of_form hplace hrange hform.symm (.inl rfl) h.aligned
          (h.bound label target htarget).1)
    obtain ⟨bytes, hbytes⟩ := hbytes
    exact ⟨_, by rw [jump, htarget]; simp only [hbytes]; rfl⟩

end Assembler

namespace Placement

variable {p : Placement} {limit labels label : Nat} {t : Transfer} {form : BranchForm}
  {e : CodeError}

/-- Of the transfers only calls may fail. -/
lemma transfer_eq_error (h : p.asm.Orderly limit labels) (hform : p.form limit t = .ok form)
    (hstep : (p.asm.step (.transfer t form)).2 = some e) :
    ∃ target, t = .call target ∧ p.asm.isa = .aarch64 ∧
      p.asm.isa.branchLimits.form target (Isa.address p.asm.base p.asm.offset) = .direct ∧
      ¬ (4 : Int) ∣ (target.toNat : Int) - (Isa.address p.asm.base p.asm.offset).toNat ∧
        e = .encoding (.branchOffset (target - Isa.address p.asm.base p.asm.offset)) := by
  cases t with
  | jump label =>
    obtain ⟨hplace, htarget, hform⟩ := labelForm_eq_ok_iff.mp hform
    obtain ⟨b, hb⟩ : ∃ b, p.asm.jump label form = .ok b := by
      refine Assembler.exists_jump_of_orderly h hplace fun target hlabel => ?_
      rw [hlabel] at htarget hform
      exact ⟨htarget, hform⟩
    simp [Assembler.step, Assembler.transfer, hb] at hstep
  | branchIf c label =>
    obtain ⟨hplace, htarget, hform⟩ := labelForm_eq_ok_iff.mp hform
    have hskip : (p.asm.append (p.asm.isa.skip c form)).Orderly limit labels := by
      refine Assembler.orderly_append h ?_
      rw [Isa.length_skip]
      exact Isa.alignment_dvd_conditionBytes
    have hoffset : (p.asm.append (p.asm.isa.skip c form)).offset =
        p.asm.offset + p.asm.isa.conditionBytes := by
      rw [Assembler.offset_append, Isa.length_skip]
    obtain ⟨b, hb⟩ : ∃ b, (p.asm.append (p.asm.isa.skip c form)).jump label form = .ok b := by
      refine Assembler.exists_jump_of_orderly hskip (by rw [hoffset]; exact hplace)
        fun target hlabel => ?_
      have hbound : p.asm.labelOffset? label = some target := hlabel
      rw [hbound] at htarget hform
      rw [hoffset]
      exact ⟨htarget, hform⟩
    simp [Assembler.step, Assembler.transfer, hb] at hstep
  | call target =>
    obtain ⟨source, hsource, hform⟩ := Except.bind_eq_ok_iff.mp hform
    obtain ⟨-, rfl⟩ := address_eq_ok_iff.mp hsource
    have hform := Except.ok.inj hform
    cases hcall : p.asm.isa.call p.asm.base form p.asm.offset target with
    | ok bytes => simp [Assembler.step, Assembler.transfer, hcall, Except.map] at hstep
    | error fault =>
      obtain ⟨hisa, hdirect, hodd, hfault⟩ := Isa.call_eq_error hform hcall
      subst hdirect
      refine ⟨target, rfl, hisa, hform, hodd, ?_⟩
      simp only [Assembler.step, Assembler.transfer, hcall, Except.map] at hstep
      rw [← Option.some.inj hstep, hfault]

/-- A label that comes up once is not bound before. -/
lemma exists_bind {isa : Isa} {base : UInt64} {before after : List Op} {k : Nat} (hk : k ≤ labels)
    (hbound : (before ++ .bind label :: after).filterMap Op.label? = List.range k)
    (h : before.foldlM (place limit) (start isa base labels) = .ok p) :
    ∃ b, p.asm.bind label = .ok b := by
  obtain ⟨hsize, hlabels⟩ := labels_of_foldlM h
  have hlabel : Op.label? (.bind label) = some label := rfl
  rw [List.filterMap_append, List.filterMap_cons_some hlabel] at hbound
  have hlt : label < k := by
    rw [← List.mem_range, ← hbound]
    exact List.mem_append_right _ List.mem_cons_self
  have hfresh : .bind label ∉ before := by
    intro hmem
    have hnodup : (before.filterMap Op.label? ++ label :: after.filterMap Op.label?).Nodup := by
      rw [hbound]
      exact List.nodup_range
    exact (List.disjoint_of_nodup_append hnodup)
      (List.mem_filterMap.mpr ⟨_, hmem, hlabel⟩) List.mem_cons_self
  have hunbound : p.asm.labels[label]? = some none := by
    obtain ⟨place, hplace⟩ : ∃ place, p.asm.labels[label]? = some place :=
      ⟨_, Array.getElem?_eq_getElem (by omega)⟩
    cases place with
    | none => exact hplace
    | some target =>
      refine absurd ((hlabels label).mp ⟨target, ?_⟩) hfresh
      rw [Assembler.labelOffset?, hplace]
      rfl
  exact ⟨_, by rw [Assembler.bind, hunbound]⟩

end Placement

namespace Method

variable {text : String} {m : Method} {cpu : Cpu} {fallback : VectorFallback} {base : UInt64}
  {limit : Nat} {options : Options} {fault : EncodingFault}

/-! ## Methods -/

/-- What has no encoding in the code of a method for an address: a frame of 2^31 bytes; on AArch64 a
direct call whose target is not a whole number of words away; and, in code that is longer than the
room, a jump forward that does not reach. -/
inductive Unencoded (m : Method) (cpu : Cpu) (fallback : VectorFallback) (base : UInt64)
    (limit : Nat) : EncodingFault → Prop where
  | frame {fault : EncodingFault} (h : 2 ^ 31 ≤ (Frame.plan m cpu.isa.deepest).size) :
      Unencoded m cpu fallback base limit fault
  | call {before after : List Op} {p : Placement} {target : UInt64} {type : DataType}
      {children : List Node} (hn : m.HasNode (.node .call type (.address target) children))
      (hops : (m.lower cpu fallback).ops = before ++ .transfer (.call target) :: after)
      (hbefore : before.foldlM (Placement.place limit)
        (.start cpu.isa base (m.blocks.length + 1)) = .ok p)
      (hisa : cpu.isa = .aarch64)
      (hdirect : cpu.isa.branchLimits.form target (address base p.asm.offset) = .direct)
      (hodd : ¬ (4 : Int) ∣ (target.toNat : Int) - (address base p.asm.offset).toNat) :
      Unencoded m cpu fallback base limit (.branchOffset (target - address base p.asm.offset))
  | room {p : Placement} {f : Fixup} {target : Nat} {fault : EncodingFault}
      (hp : m.Placed cpu fallback base limit p) (hsize : limit < p.asm.code.size)
      (hf : f ∈ p.asm.fixups) (hdirect : f.form = .direct)
      (htarget : p.asm.labelOffset? f.label = some target)
      (hspans : ¬ cpu.isa.Spans f.place target) : Unencoded m cpu fallback base limit fault

/-- On AArch64 nothing is placed behind a prologue whose frame is too large, except that the size of
a frame of 2^32 bytes is cut off. -/
lemma size_of_placed (hlowered : m.Lowered cpu fallback) {before after : List Op} {o : Op}
    {p : Placement} (hops : (m.lower cpu fallback).ops = before ++ o :: after)
    (hbefore : before.foldlM (Placement.place limit)
      (.start cpu.isa base (m.blocks.length + 1)) = .ok p)
    (ho : ∀ frame, o ≠ .instr (.prologue frame)) (hlarge : ¬ m.SmallFrame cpu) :
    2 ^ 31 ≤ (Frame.plan m cpu.isa.deepest).size := by
  obtain ⟨hisa, hsize⟩ : cpu.isa = .aarch64 ∧
      4095 < (Frame.plan m cpu.isa.deepest).size := by
    exact Classical.not_imp.mp hlarge |>.imp_right Nat.lt_of_not_le
  cases before with
  | nil => exact absurd (hlowered.first o (by rw [hops]; rfl)) (ho _)
  | cons first before =>
    obtain rfl := hlowered.first first (by rw [hops]; rfl)
    -- The prologue was placed, so what is left of the size in 32 bits is small.
    rw [List.foldlM_cons] at hbefore
    obtain ⟨q, hq, -⟩ := Except.bind_eq_ok_iff.mp hbefore
    obtain ⟨hnone, -⟩ := Placement.step_eq_ok_iff.mp hq
    have hframe : ¬ A64.maxFrame < UInt32.ofNat (Frame.plan m cpu.isa.deepest).size := by
      intro hframe
      have hstart : (Placement.start cpu.isa base (m.blocks.length + 1)).asm.isa = .aarch64 := hisa
      simp [Assembler.step, hstart, Isa.emission, A64.select, hframe] at hnone
    have hle := UInt32.le_iff_toNat_le.mp (UInt32.not_lt.mp hframe)
    rw [UInt32.toNat_ofNat'] at hle
    have hmax : A64.maxFrame.toNat = 4095 := rfl
    rw [hmax] at hle
    omega

/-- Why an instruction of a method has no encoding. -/
lemma unencoded_of_instr (hlowered : m.Lowered cpu fallback) {before after : List Op} {i : Instr}
    {p : Placement} (hops : (m.lower cpu fallback).ops = before ++ .instr i :: after)
    (hbefore : before.foldlM (Placement.place limit)
      (.start cpu.isa base (m.blocks.length + 1)) = .ok p)
    (hfailure : (cpu.isa.emission i).failure = some (.encoding fault)) :
    m.Unencoded cpu fallback base limit fault := by
  have hmem : .instr i ∈ (m.lower cpu fallback).ops := by
    rw [hops]
    exact List.mem_append_right _ List.mem_cons_self
  have hnot : ¬ cpu.isa.Encodes i := by
    intro hnone
    rw [Isa.Encodes, hfailure] at hnone
    cases hnone
  by_cases hprologue : ∃ frame, i = .prologue frame
  · obtain ⟨frame, rfl⟩ := hprologue
    obtain ⟨hx64, hlarge⟩ := Isa.fault_of_prologue hfailure
    rcases hlowered.emits _ hmem with hemits | ⟨_, hbind⟩
    · cases hemits with
      | prologue =>
        rw [UInt32.toNat_ofNat'] at hlarge
        exact .frame (hlarge.trans (Nat.mod_le _ _))
      | instr hencodes => exact absurd (hencodes fun ha64 => by rw [hx64] at ha64; cases ha64) hnot
    · cases hbind
  · rcases hlowered.emits _ hmem with hemits | ⟨_, hbind⟩
    · cases hemits with
      | prologue => exact absurd ⟨_, rfl⟩ hprologue
      | instr hencodes =>
        refine .frame (size_of_placed hlowered hops hbefore (fun frame h => ?_) fun hsmall => ?_)
        · cases h
          exact hprologue ⟨frame, rfl⟩
        · exact hnot (hencodes hsmall)
    · cases hbind

/-- Why an operation of a method has no encoding. -/
lemma unencoded_of_place (hlowered : m.Lowered cpu fallback) {before after : List Op} {o : Op}
    {p : Placement} (hops : (m.lower cpu fallback).ops = before ++ o :: after)
    (hbefore : before.foldlM (Placement.place limit)
      (.start cpu.isa base (m.blocks.length + 1)) = .ok p)
    (hplace : p.place limit o = .error (.encoding fault)) :
    m.Unencoded cpu fallback base limit fault := by
  obtain ⟨hisa, hbase⟩ := Placement.extends_of_foldlM hbefore
  have hmem : o ∈ (m.lower cpu fallback).ops := by
    rw [hops]
    exact List.mem_append_right _ List.mem_cons_self
  rcases Placement.chooses_of_place_eq_error hplace with ⟨s, hs, hstep⟩ | ⟨t, -, hform⟩
  · cases hs with
    | instr => exact unencoded_of_instr hlowered hops hbefore (hisa ▸ hstep)
    | @bind label =>
      obtain ⟨k, hk, hbound⟩ := hlowered.bound
      rw [Lowering.bound, hops] at hbound
      obtain ⟨b, hb⟩ := Placement.exists_bind hk hbound hbefore
      simp [Assembler.step, hb] at hstep
    | @transfer t form hform =>
      have horderly := Placement.orderly_foldlM
        (Placement.orderly_start cpu.isa base (m.blocks.length + 1)) (fun t label ht hlabel => ?_)
        hbefore
      · obtain ⟨target, rfl, ha64, hdirect, hodd, he⟩ :=
          Placement.transfer_eq_error horderly hform hstep
        rw [hisa] at ha64 hdirect
        rw [hbase] at hdirect hodd he
        obtain rfl := CodeError.encoding.inj he
        rcases hlowered.emits _ hmem with hemits | ⟨_, hbind⟩
        · cases hemits with
          | call hn => exact .call hn hops hbefore ha64 hdirect hodd
        · cases hbind
      · refine label_lt_of_lowered hlowered ?_ hlabel
        rw [hops]
        exact List.mem_append_left _ ht
  · cases Placement.form_eq_error hform

/-- **Only three things have no encoding** when the code of a parsed method is assembled. -/
theorem unencoded_of_assemble (h : parse text = .ok m)
    (hassemble : m.assemble cpu base options = .error (.encoding fault)) :
    m.Unencoded cpu options.fallback base options.maxCodeSize fault := by
  obtain ⟨e, -, hm⟩ := Except.bind_eq_ok_iff.mp h
  have hlowered : m.Lowered cpu options.fallback := lowered_of_ofExpr hm
  rcases assemble_eq_error hassemble with he | ⟨_, -, he⟩ | ⟨_, he⟩ | ⟨hrange, hflow, hcode⟩
  · cases he
  · cases he
  · cases he
  rcases Lowering.assemble_eq_error hcode with ⟨before, o, after, p, hops, hbefore, hplace⟩ |
    hresult | ⟨p, fault', hplaced, hresult, hfinish, he⟩
  · exact unencoded_of_place hlowered hops hbefore hplace
  · cases hlowered.stops _ hresult
  · obtain rfl := CodeError.encoding.inj he
    have hp : m.Placed cpu options.fallback base options.maxCodeSize p :=
      ⟨hrange, hflow, hplaced, hresult⟩
    have horderly := orderly_of_placed hlowered hp
    obtain ⟨hisa, hbase⟩ := Placement.extends_of_foldlM hp.placed
    have hbound : ∀ label < m.blocks.length + 1, ∃ target,
        p.asm.labelOffset? label = some target := fun label hlt =>
      exists_labelOffset_of_placed hlowered hp (Nat.le_of_lt_succ hlt)
    obtain ⟨f, hf, target, hdirect, htarget, hspans⟩ :=
      Assembler.open_of_finish_eq_error horderly hbound hfinish
    have hsize : options.maxCodeSize < p.asm.code.size := by
      by_contra hle
      obtain ⟨bytes, hbytes⟩ := Assembler.exists_finish horderly (by rw [hbase]; exact hrange)
        (Nat.le_of_not_lt hle) hbound
      rw [hfinish] at hbytes
      cases hbytes
    rw [hisa] at hspans
    exact .room hp hsize hf hdirect htarget hspans

/-- A method that calls an address that is not a multiple of four. -/
def strayText : String := "(method return=NoType args=[] (block (call address=0x1011) (return)))"

/-- The method of the text `strayText`. -/
def stray : Method :=
  ⟨none, .noType, [], [⟨none, [.node .call .noType (.address 0x1011) [],
    .node .ret .noType .none []]⟩]⟩

set_option maxRecDepth 2000 in
lemma parse_strayText : parse strayText = .ok stray := by
  cbv

/-- The call of `stray` is near enough to be direct, and is not a whole number of words away. -/
theorem unencoded_of_assemble_strayText :
    parse strayText = .ok stray ∧
      stray.assemble (.baseline .aarch64) 0x1000 .default = .error (.encoding (.branchOffset 5)) ∧
        stray.Unencoded (.baseline .aarch64) .fail 0x1000 16777216 (.branchOffset 5) := by
  have hassemble : stray.assemble (.baseline .aarch64) 0x1000 .default =
      .error (.encoding (.branchOffset 5)) := rfl
  exact ⟨parse_strayText, hassemble, unencoded_of_assemble parse_strayText hassemble⟩

/-- Assembling fails because of where a call goes, although the call through a register has an
encoding. -/
theorem direct_call_fails :
    parse strayText = .ok stray ∧ stray.checkFlow = .ok () ∧
      Isa.aarch64.branchLimits.form 0x1011 (address 0x1000 12) = .direct ∧
      stray.assemble (.baseline .aarch64) 0x1000 .default = .error (.encoding (.branchOffset 5)) ∧
        ∃ bytes, Isa.aarch64.call 0x1000 .indirect 12 0x1011 = .ok bytes :=
  ⟨parse_strayText, rfl, rfl, rfl, _, rfl⟩

end Method

end TreeCode
