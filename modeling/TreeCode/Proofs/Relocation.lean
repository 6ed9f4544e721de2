import Mathlib.Tactic.Common
import TreeCode.Proofs.Fixups

/-!
# Code without calls can stand anywhere

Where a direct jump crosses all of the room that code may take (`Isa.Room`), every jump is direct,
and a direct jump holds nothing but a distance.  So what is placed at one address is placed in the
same way at any other one where there is room for it (`Placement.foldlM_moved`), and finishing it
leaves the same bytes.  Only calls know of absolute addresses.
-/

namespace TreeCode

open Isa (address)

/-! ## Room -/

namespace Isa

/-- The addresses from a base on to a limit exist, and a direct jump crosses all of them forward and
backward. -/
structure Room (isa : Isa) (base : UInt64) (limit : Nat) : Prop where
  range : base.toNat + limit < wordRange
  forward : limit ≤ isa.branchLimits.forward.toNat
  backward : limit ≤ isa.branchLimits.backward.toNat

variable {isa : Isa} {base base' : UInt64} {limit place target : Nat} {bytes : List UInt8}

/-- All jumps inside of the room are direct. -/
lemma Room.form_eq_direct (h : isa.Room base limit) (hplace : place ≤ limit)
    (htarget : target ≤ limit) :
    isa.branchLimits.form (address base target) (address base place) = .direct := by
  have hrange := h.range
  have hforward := h.forward
  have hbackward := h.backward
  rw [BranchLimits.form_eq_direct_iff, toNat_address (by omega), toNat_address (by omega)]
  constructor
  · omega
  · omega

lemma address_sub (base : UInt64) (target place : Nat) :
    address base target - address base place = UInt64.ofNat target - UInt64.ofNat place := by
  rw [UInt64.sub_eq_iff_eq_add, UInt64.add_comm, add_sub_address]

/-- The distance between two places of the code is the same wherever the code is. -/
lemma distance_moved {d : Int32} (base' : UInt64)
    (h : X64.distance (address base place) (address base target) = .ok d) :
    X64.distance (address base' place) (address base' target) = .ok d := by
  have hend (b : UInt64) : address b place + 5 = address b (place + 5) := (address_add place 5).symm
  simp only [X64.distance, hend, address_sub] at h ⊢
  split at h
  · rename_i hrange
    rwa [if_pos hrange]
  · cases h

/-- A direct jump is the same wherever the code is. -/
lemma jump_moved (base' : UInt64) (h : isa.jump base .direct place target = .ok bytes) :
    isa.jump base' .direct place target = .ok bytes := by
  cases isa with
  | x64 =>
    obtain ⟨d, hd, h⟩ := Except.bind_eq_ok_iff.mp h
    rw [jump, distance_moved base' hd]
    exact h
  | aarch64 => exact h

end Isa

/-! ## Assemblers -/

namespace Assembler

variable {a b : Assembler} {label : Nat} {form : BranchForm} {t : Transfer}

/-- The same code in the making for another address. -/
def moved (a : Assembler) (base : UInt64) : Assembler := { a with base := base }

lemma jump_moved (base : UInt64) (h : a.jump label .direct = .ok b) :
    (a.moved base).jump label .direct = .ok (b.moved base) := by
  have hlabel : (a.moved base).labelOffset? label = a.labelOffset? label := rfl
  unfold jump at h ⊢
  rw [hlabel]
  split at h
  · obtain ⟨bytes, hbytes, h⟩ := Except.bind_eq_ok_iff.mp h
    cases h
    have hmoved : (a.moved base).isa.jump (a.moved base).base .direct (a.moved base).offset _ = _ :=
      Isa.jump_moved base hbytes
    rw [hmoved]
    rfl
  · cases h
    rfl

/-- A direct jump or branch that does not fail is the same wherever the code is. -/
lemma transfer_moved (base : UInt64) (hlabel : t.label? = some label)
    (h : (a.transfer t .direct).2 = none) :
    (a.moved base).transfer t .direct = ((a.transfer t .direct).1.moved base, none) := by
  cases t with
  | jump other =>
    cases hjump : a.jump other .direct with
    | error fault => simp [transfer, hjump] at h
    | ok b => simp only [transfer, hjump, jump_moved base hjump]
  | branchIf c other =>
    have hskip : (a.moved base).append ((a.moved base).isa.skip c .direct) =
        (a.append (a.isa.skip c .direct)).moved base := rfl
    cases hjump : (a.append (a.isa.skip c .direct)).jump other .direct with
    | error fault => simp [transfer, hjump] at h
    | ok b => simp only [transfer, hskip, hjump, jump_moved base hjump]
  | call target => cases hlabel

/-- Code all of whose open jumps are direct is finished in the same way wherever it is. -/
lemma finish_moved (base : UInt64) (h : ∀ f ∈ a.fixups, f.form = .direct) :
    (a.moved base).finish = a.finish := by
  have hfill : ∀ f ∈ a.fixups.toList, ∀ code, (a.moved base).fill code f = a.fill code f := by
    intro f hf code
    have hlabel : (a.moved base).labelOffset? f.label = a.labelOffset? f.label := rfl
    rw [fill, fill, hlabel, h f (Array.mem_toList_iff.mp hf)]
    rfl
  show a.fixups.toList.foldlM (a.moved base).fill a.code = a.fixups.toList.foldlM a.fill a.code
  generalize a.fixups.toList = fixups at hfill
  generalize a.code = code
  induction fixups generalizing code with
  | nil => rw [List.foldlM_nil, List.foldlM_nil]
  | cons f fixups ih =>
    rw [List.forall_mem_cons] at hfill
    rw [List.foldlM_cons, List.foldlM_cons, hfill.1]
    exact bind_congr fun next => ih hfill.2 next

end Assembler

/-! ## Placing -/

namespace Placement

variable {p q : Placement} {limit limit' labels label : Nat} {base base' : UInt64} {isa : Isa}
  {o : Op} {ops : List Op} {t : Transfer}

/-- The same code in the making for another address, with the same numbers of transfers. -/
def moved (p : Placement) (base : UInt64) : Placement := { p with asm := p.asm.moved base }

/-- Inside of the room every jump and branch is direct, whether its label is bound or not. -/
lemma form_of_room (hroom : p.asm.isa.Room p.asm.base limit)
    (hbound : ∀ label target, p.asm.labelOffset? label = some target → target ≤ p.asm.offset)
    (hsize : p.asm.offset + t.lead p.asm.isa ≤ limit) (hlabel : t.label? = some label) :
    p.form limit t = .ok .direct := by
  have hrange := hroom.range
  have htarget : (p.asm.labelOffset? label).getD limit ≤ limit := by
    cases h : p.asm.labelOffset? label with
    | none => exact Nat.le_refl limit
    | some target =>
      have hle := hbound label target h
      show target ≤ limit
      omega
  rw [form_of_label hlabel, labelForm_eq_ok_iff]
  exact ⟨by omega, by omega, (hroom.form_eq_direct hsize htarget).symm⟩

/-- An operation that is no call is placed in the same way wherever there is room for it. -/
lemma place_moved (hroom : p.asm.isa.Room p.asm.base limit) (hroom' : p.asm.isa.Room base' limit')
    (hbound : ∀ label target, p.asm.labelOffset? label = some target → target ≤ p.asm.offset)
    (hcall : ∀ target, o ≠ .transfer (.call target))
    (hsize : q.asm.offset ≤ limit) (hsize' : q.asm.offset ≤ limit')
    (h : p.place limit o = .ok q) :
    (p.moved base').place limit' o = .ok (q.moved base') ∧ q.indirect = p.indirect := by
  cases o with
  | instr i =>
    obtain ⟨hnone, rfl⟩ := step_eq_ok_iff.mp h
    exact ⟨step_eq_ok_iff.mpr ⟨hnone, rfl⟩, rfl⟩
  | bind label =>
    obtain ⟨hnone, rfl⟩ := step_eq_ok_iff.mp h
    refine ⟨step_eq_ok_iff.mpr ?_, rfl⟩
    have hlabel : (p.moved base').asm.labels[label]? = p.asm.labels[label]? := rfl
    simp only [Assembler.step, Assembler.bind, hlabel] at hnone ⊢
    split at hnone
    · rename_i b hbind
      split at hbind <;> cases hbind
      exact ⟨rfl, rfl⟩
    · cases hnone
  | transfer t =>
    obtain ⟨form, hform, h⟩ := Except.bind_eq_ok_iff.mp h
    obtain ⟨hnone, rfl⟩ := step_eq_ok_iff.mp h
    rw [asm_count, Assembler.step] at hnone hsize hsize'
    have hlead := Assembler.lead_le_offset_transfer hnone
    obtain ⟨label, hlabel⟩ : ∃ label, t.label? = some label := by
      cases t with
      | jump label => exact ⟨label, rfl⟩
      | branchIf c label => exact ⟨label, rfl⟩
      | call target => exact absurd rfl (hcall target)
    obtain rfl : form = .direct :=
      Except.ok.inj (hform.symm.trans (form_of_room hroom hbound (hlead.trans hsize) hlabel))
    have hform' : (p.moved base').form limit' t = .ok .direct :=
      form_of_room (p := p.moved base') hroom' hbound (hlead.trans hsize') hlabel
    have hstep := Assembler.transfer_moved base' hlabel hnone
    refine ⟨?_, rfl⟩
    rw [place, hform', Except.ok_bind, step_eq_ok_iff, asm_count, Assembler.step]
    have hasm : ((p.moved base').asm.transfer t .direct).1 =
        (p.asm.transfer t .direct).1.moved base' := congrArg Prod.fst hstep
    rw [hasm]
    exact ⟨congrArg Prod.snd hstep, rfl⟩

/-- **Operations without calls are placed in the same way wherever there is room for them**, and no
jump among them goes through a register. -/
theorem foldlM_moved (hroom : isa.Room base limit) (hroom' : isa.Room base' limit')
    (hcalls : ∀ target, .transfer (.call target) ∉ ops)
    (hlabels : ∀ t label, .transfer t ∈ ops → t.label? = some label → label < labels)
    (hsize : p.asm.offset ≤ limit) (hsize' : p.asm.offset ≤ limit')
    (h : ops.foldlM (place limit) (start isa base labels) = .ok p) :
    ops.foldlM (place limit') (start isa base' labels) = .ok (p.moved base') ∧
      p.indirect = 0 := by
  induction ops using List.reverseRecOn generalizing p with
  | nil =>
    cases h
    exact ⟨rfl, rfl⟩
  | append_singleton ops o ih =>
    rw [List.foldlM_append] at h
    obtain ⟨before, hbefore, h⟩ := Except.bind_eq_ok_iff.mp h
    rw [List.foldlM_cons] at h
    obtain ⟨last, hplace, h⟩ := Except.bind_eq_ok_iff.mp h
    obtain rfl := Except.ok.inj h
    have hle := offset_le_of_place hplace
    have hlabels' : ∀ t label, .transfer t ∈ ops → t.label? = some label → label < labels :=
      fun t label ht => hlabels t label (List.mem_append_left _ ht)
    obtain ⟨hmoved, hindirect⟩ := ih (fun target ht => hcalls target (List.mem_append_left _ ht))
      hlabels' (hle.trans hsize) (hle.trans hsize') hbefore
    -- what is bound so far lies behind the code, which is all that jumps backward need
    have hbound := (orderly_foldlM (orderly_start isa base labels) hlabels' hbefore).bound
    obtain ⟨hisa, hbase⟩ := extends_of_foldlM hbefore
    obtain ⟨hlast, hsame⟩ := place_moved (hisa.symm ▸ hbase.symm ▸ hroom) (hisa.symm ▸ hroom')
      (fun label target ht => (hbound label target ht).2)
      (fun target ho => hcalls target (by simp [ho])) hsize hsize' hplace
    refine ⟨?_, hsame.trans hindirect⟩
    rw [List.foldlM_append, hmoved, Except.ok_bind, List.foldlM_cons, hlast]
    rfl

end Placement

/-! ## Methods -/

namespace Method

variable {text : String} {m : Method} {cpu : Cpu} {fallback : VectorFallback}
  {base base' : UInt64} {limit limit' : Nat} {options options' : Options} {code : MachineCode}
  {p : Placement}

/-- Whether a call stands anywhere in the method. -/
def hasCall (m : Method) : Bool := m.trees.any (Node.any fun op _ => op == .call)

lemma any_of_hasNode {q : Opcode → DataType → Bool} {n : Node} (hn : m.HasNode n)
    (h : n.any q = true) : m.trees.any (Node.any q) = true := by
  induction hn with
  | root hb hmem => exact List.any_eq_true.mpr ⟨_, List.mem_flatMap.mpr ⟨_, hb, hmem⟩, h⟩
  | child _ hmem ih =>
    refine ih ?_
    rw [Node.any, Node.anyOf_eq_any, List.any_eq_true.mpr ⟨_, hmem, h⟩, Bool.or_true]

/-- A method without calls is lowered to operations without calls. -/
lemma call_not_mem_of_lowered (hlowered : m.Lowered cpu fallback) (hcalls : m.hasCall = false)
    (target : UInt64) : .transfer (.call target) ∉ (m.lower cpu fallback).ops := by
  intro hmem
  rcases hlowered.emits _ hmem with hemits | ⟨label, hbind⟩
  · cases hemits with
    | call hn =>
      have hany : m.hasCall = true := any_of_hasNode hn (by simp [Node.any])
      rw [hcalls] at hany
      cases hany
  · cases hbind

section Callless

variable (hlowered : m.Lowered cpu fallback) (hcalls : m.hasCall = false)
  (hroom : cpu.isa.Room base limit) (hroom' : cpu.isa.Room base' limit')

include hlowered hcalls hroom hroom'

/-- Code without calls that keeps within the room of another address is made there, too. -/
lemma codeAt_moved (h : m.codeAt cpu fallback base limit = .ok code)
    (hsize : code.bytes.size ≤ limit) (hsize' : code.bytes.size ≤ limit') :
    m.codeAt cpu fallback base' limit' = .ok { code with base := base' } ∧ code.indirect = 0 := by
  obtain ⟨p, hp, hfinish, hcode⟩ := exists_placed_of_codeAt h
  rw [hp.size_eq hfinish] at hsize hsize'
  have hlabels : ∀ t label, .transfer t ∈ (m.lower cpu fallback).ops → t.label? = some label →
      label < m.blocks.length + 1 := fun _ _ ht hlabel => label_lt_of_lowered hlowered ht hlabel
  obtain ⟨hmoved, hindirect⟩ := Placement.foldlM_moved hroom hroom'
    (call_not_mem_of_lowered hlowered hcalls) hlabels hsize hsize' hp.placed
  -- open jumps were taken for jumps to the end of the room, so they are direct as well
  have hdirect : ∀ f ∈ p.asm.fixups, f.form = .direct := by
    intro f hf
    obtain ⟨hisa, hbase⟩ := Placement.extends_of_foldlM hp.placed
    have hopen := (orderly_of_placed hlowered hp).opened f hf
    have hchosen := hopen.chosen.2
    rw [hisa, hbase] at hchosen
    exact hchosen.trans (hroom.form_eq_direct (hopen.reached.trans hsize) (Nat.le_refl limit))
  have hp' : m.Placed cpu fallback base' limit' (p.moved base') :=
    ⟨hroom'.range, hp.flow, hmoved, hp.lowered⟩
  have hfinish' : (p.moved base').asm.finish = .ok code.bytes :=
    (Assembler.finish_moved base' hdirect).trans hfinish
  rw [codeAt_of_placed hp', hfinish', hcode]
  exact ⟨rfl, hindirect⟩

end Callless

/-- **Code without calls is the same everywhere.**  Where every direct jump crosses the room that
code may take, a method without calls whose code is made for one address has code for any other one
if and only if the code fits there.  It is the same code, and no jump in it goes through a
register. -/
theorem assemble_moved (hparse : parse text = .ok m) (hcalls : m.hasCall = false)
    (hfallback : options'.fallback = options.fallback)
    (hroom : cpu.isa.Room base options.maxCodeSize)
    (hroom' : cpu.isa.Room base' options'.maxCodeSize)
    (h : m.assemble cpu base options = .ok code) :
    code.indirect = 0 ∧
      ((∃ code', m.assemble cpu base' options' = .ok code') ↔
        code.bytes.size ≤ options'.maxCodeSize) ∧
      ∀ code', m.assemble cpu base' options' = .ok code' →
        code'.isa = code.isa ∧ code'.base = base' ∧ code'.bytes = code.bytes ∧
          code'.direct = code.direct ∧ code'.indirect = code.indirect ∧
            code'.scalarized = code.scalarized := by
  obtain ⟨e, -, hm⟩ := Except.bind_eq_ok_iff.mp hparse
  have hlowered : m.Lowered cpu options.fallback := lowered_of_ofExpr hm
  obtain ⟨hcode, hsize⟩ := assemble_eq_ok_iff.mp h
  have hindirect := (codeAt_moved hlowered hcalls hroom hroom hcode hsize hsize).2
  -- Code made at the other address is no longer than what either limit allows, so it is the same.
  have hsame : ∀ code', m.assemble cpu base' options' = .ok code' →
      code' = { code with base := base' } := by
    intro code' h'
    obtain ⟨hcode', hsize'⟩ := assemble_eq_ok_iff.mp h'
    rw [hfallback] at hcode'
    rcases Nat.le_total code.bytes.size code'.bytes.size with hle | hle
    · have hmoved := (codeAt_moved hlowered hcalls hroom hroom' hcode hsize (hle.trans hsize')).1
      exact Except.ok.inj (hcode'.symm.trans hmoved)
    · have hmoved := (codeAt_moved hlowered hcalls hroom' hroom hcode' hsize' (hle.trans hsize)).1
      obtain rfl := Except.ok.inj (hcode.symm.trans hmoved)
      obtain ⟨_, -, -, heq⟩ := exists_placed_of_codeAt hcode'
      have hbase : code'.base = base' := by rw [heq]
      rw [← hbase]
  refine ⟨hindirect, ⟨?_, fun hfits => ?_⟩, fun code' h' => ?_⟩
  · rintro ⟨code', h'⟩
    have hbytes : code'.bytes = code.bytes := by rw [hsame code' h']
    rw [← hbytes]
    exact (assemble_eq_ok_iff.mp h').2
  · have hmoved := (codeAt_moved hlowered hcalls hroom hroom' hcode hsize hfits).1
    rw [← hfallback] at hmoved
    exact ⟨_, assemble_eq_ok_iff.mpr ⟨hmoved, hfits⟩⟩
  · rw [hsame code' h']
    exact ⟨rfl, rfl, rfl, rfl, rfl, rfl⟩

/-- A method that branches forward and backward, without calls. -/
def spinText : String :=
  "(method return=NoType args=[] " ++
    "(block (ificmpgt target=spin (iconst 1) (iconst 2)) (return)) " ++
    "(block name=spin (goto target=spin)))"

/-- The method of the text `spinText`. -/
def spin : Method :=
  ⟨none, .noType, [], [
    ⟨none, [.node (.ifcmp .gt) .int32 (.target 1)
        [.node .const .int32 (.int 1) [], .node .const .int32 (.int 2) []],
      .node .ret .noType .none []]⟩,
    ⟨some "spin", [.node .goto .noType (.target 1) []]⟩]⟩

set_option maxRecDepth 2000 in
lemma parse_spinText : parse spinText = .ok spin := by
  cbv

/-- The 48 bytes of `spin` on AArch64 are the same in the last bytes of the address space, and one
byte less is not enough for them. -/
theorem assemble_moved_spinText :
    parse spinText = .ok spin ∧ spin.hasCall = false ∧
      (Cpu.baseline .aarch64).isa.Room 0x10000 4096 ∧
      (Cpu.baseline .aarch64).isa.Room 0xffffffffffffffc0 48 ∧
      (Cpu.baseline .aarch64).isa.Room 0xffffffffffffffc0 47 ∧
      ∃ code, spin.assemble (.baseline .aarch64) 0x10000 ⟨.fail, 0, 4096⟩ = .ok code ∧
        code.bytes.size = 48 ∧ code.direct = 3 ∧ code.indirect = 0 ∧
        (∃ code', spin.assemble (.baseline .aarch64) 0xffffffffffffffc0 ⟨.fail, 0, 48⟩ =
          .ok code' ∧ code'.bytes = code.bytes) ∧
        ¬ ∃ code', spin.assemble (.baseline .aarch64) 0xffffffffffffffc0 ⟨.fail, 0, 47⟩ =
          .ok code' := by
  have hroom : (Cpu.baseline .aarch64).isa.Room 0x10000 4096 :=
    ⟨by decide, by decide, by decide⟩
  have hfit : (Cpu.baseline .aarch64).isa.Room 0xffffffffffffffc0 48 :=
    ⟨by decide, by decide, by decide⟩
  have htight : (Cpu.baseline .aarch64).isa.Room 0xffffffffffffffc0 47 :=
    ⟨by decide, by decide, by decide⟩
  have hmade : (spin.assemble (.baseline .aarch64) 0x10000 ⟨.fail, 0, 4096⟩).map
      (fun code => (code.bytes.size, code.direct)) = .ok (48, 3) := by
    decide +kernel
  obtain ⟨code, hcode, hcounts⟩ := Except.map_eq_ok_iff.mp hmade
  obtain ⟨hsize, hdirect⟩ := Prod.mk.injEq .. ▸ hcounts
  have hcalls : spin.hasCall = false := by decide
  have hfallback (limit : Nat) : (Options.mk .fail 0 limit).fallback =
      (Options.mk .fail 0 4096).fallback := rfl
  obtain ⟨hindirect, hfits, hsame⟩ :=
    assemble_moved parse_spinText hcalls (hfallback 48) hroom hfit hcode
  obtain ⟨-, hfits', -⟩ :=
    assemble_moved parse_spinText hcalls (hfallback 47) hroom htight hcode
  refine ⟨parse_spinText, hcalls, hroom, hfit, htight, code, hcode, hsize, hdirect, hindirect,
    ?_, ?_⟩
  · obtain ⟨code', hcode'⟩ := hfits.mpr (by rw [hsize])
    exact ⟨code', hcode', (hsame code' hcode').2.2.1⟩
  · rw [hfits', hsize]
    decide

end Method

end TreeCode
