import Mathlib.Data.List.Forall2
import Mathlib.Tactic.Common
import TreeCode.Proofs.Assignment
import TreeCode.Proofs.Effects
import TreeCode.Proofs.Straight

/-!
# Calls

A call keeps nothing in registers.  What is waited for is saved in the frame before it and restored
behind it; the arguments, which have been gathered in a row of the frame, are loaded into their
registers in between.
-/

namespace TreeCode

namespace Machine

variable {M : Machine} {p : Plan} {held : List Reg} {level limit depth params : Nat}
  {shape : CallShape} {vectors : Bool} {σ σ' : State}

/-- A whole register is read back as it was stored. -/
lemma exists_decode?_whole {bank : Bank} {bs : List UInt8}
    (h : bs.length = (Access.whole bank).bytes) :
    ∃ d : Datum, (Access.whole bank).decode? bs = some d ∧ d.bytes = bs := by
  cases bank with
  | general =>
    refine ⟨_, if_pos h, ?_⟩
    have hlt := ofLittleEndian_lt bs
    have hback := littleEndian_ofLittleEndian bs
    rw [h] at hlt hback
    have hmod : ofLittleEndian bs % 2 ^ 64 = ofLittleEndian bs := Nat.mod_eq_of_lt hlt
    change littleEndian 8 (UInt64.ofNat (ofLittleEndian bs)).toNat = bs
    rw [UInt64.toNat_ofNat', hmod]
    exact hback
  | vector => exact ⟨_, if_pos h, rfl⟩

/-! ## Saving and restoring -/

/-- The registers of a list are saved in the slots from a place on. -/
def Saved (f : Frame) (whole : Reg → List UInt8) (l : List (Reg × Nat)) (σ : State) : Prop :=
  ∀ r k, (r, k) ∈ l → σ.frame.read (f.spill k) (Access.whole r.bank).bytes = whole r

lemma whole_bytes_le (bank : Bank) : (Access.whole bank).bytes ≤ spillBytes := by
  cases bank <;> decide

lemma exec_save_from {l : List Reg} {n slots : Nat}
    (hframe : p.frame.Fits params slots shape vectors) (hlevels : 0 < shape.levels)
    (hsize : σ.frameSize = p.frame.size) (hn : n + l.length ≤ slots)
    (hpool : ∀ r ∈ l, r.index < M.isa.pool r.bank) :
    ∃ σ', M.exec ((l.zipIdx n).map fun (r, k) => .instr (.store (.whole r.bank) r .frame
        (frameOffset (p.frame.spill k)))) [] σ = some σ' ∧
      σ'.world = σ.world ∧ σ'.registers = σ.registers ∧ σ'.frameSize = σ.frameSize ∧
      (∀ i, i < p.frame.spill n ∨ p.frame.stagingBase ≤ i → σ'.frame i = σ.frame i) ∧
      Saved p.frame σ.whole (l.zipIdx n) σ' := by
  induction l generalizing n σ with
  | nil => exact ⟨σ, rfl, rfl, rfl, rfl, fun _ _ => rfl, by simp [Saved]⟩
  | cons r l ih =>
    rw [List.length_cons] at hn
    rw [List.forall_mem_cons] at hpool
    have hslot : p.frame.spill n + spillBytes ≤ p.frame.stagingBase :=
      hframe.spill_le hlevels (by omega)
    have hbytes := whole_bytes_le r.bank
    have hroom : p.frame.spill n + (Access.whole r.bank).bytes ≤ σ.frameSize := by
      have hstaging := hframe.staging_le
      have hscratch := hframe.scratchBase_le
      omega
    have hstore : M.perform σ (.store (.whole r.bank) r .frame (frameOffset (p.frame.spill n))) =
        some (σ.store (p.frame.spill n) (σ.whole r)) :=
      perform_store_frame ⟨Access.bank_whole _, hpool.1⟩ hroom (hsize ▸ hframe.size_lt)
    have hnext : p.frame.spill n + spillBytes = p.frame.spill (n + 1) := by
      simp only [Frame.spill, spillBytes]
      omega
    have hsize₁ : (σ.store (p.frame.spill n) (σ.whole r)).frameSize = p.frame.size := hsize
    have hn₁ : n + 1 + l.length ≤ slots := by omega
    obtain ⟨σ', hexec, hworld, hregisters, hsize', hframe', hsaved⟩ := ih hsize₁ hn₁ hpool.2
    refine ⟨σ', by simp [exec, hstore, hexec], hworld, hregisters, hsize', fun i hi => ?_, ?_⟩
    · rw [hframe' i (by omega)]
      rcases hi with hi | hi
      · exact Contents.write_of_lt hi
      · refine Contents.write_of_ge ?_
        rw [State.whole, Contents.length_read]
        omega
    · rw [Saved, List.zipIdx_cons]
      intro r' k hmem
      rcases List.mem_cons.mp hmem with heq | hmem
      · obtain ⟨rfl, rfl⟩ := Prod.mk.inj heq
        have hkept : σ'.frame.read (p.frame.spill k) (Access.whole r'.bank).bytes =
            (σ.store (p.frame.spill k) (σ.whole r')).frame.read (p.frame.spill k)
              (Access.whole r'.bank).bytes :=
          Contents.read_congr fun i hi => hframe' _ (.inl (by omega))
        rw [hkept]
        exact Contents.read_write_of_length Contents.length_read
      · exact hsaved r' k hmem

lemma exec_restore_from {whole : Reg → List UInt8} {l : List Reg} {n slots : Nat}
    (hframe : p.frame.Fits params slots shape vectors) (hlevels : 0 < shape.levels)
    (hsize : σ.frameSize = p.frame.size) (hn : n + l.length ≤ slots)
    (hpool : ∀ r ∈ l, r.index < M.isa.pool r.bank)
    (hsaved : Saved p.frame whole (l.zipIdx n) σ) :
    ∃ σ', M.exec ((l.zipIdx n).map fun (r, k) => .instr (.load (.whole r.bank) r .frame
        (frameOffset (p.frame.spill k)))) [] σ = some σ' ∧
      σ'.world = σ.world ∧ σ'.frame = σ.frame ∧ σ'.frameSize = σ.frameSize ∧
      (∀ r ∈ l, σ'.whole r = whole r) ∧
      ∀ r, r ∉ l → σ'.registers.pool r = σ.registers.pool r := by
  induction l generalizing n σ with
  | nil => exact ⟨σ, rfl, rfl, rfl, rfl, by simp, fun _ _ => rfl⟩
  | cons r l ih =>
    rw [List.length_cons] at hn
    rw [List.forall_mem_cons] at hpool
    have hslot : p.frame.spill n + spillBytes ≤ p.frame.stagingBase :=
      hframe.spill_le hlevels (by omega)
    have hbytes := whole_bytes_le r.bank
    have hroom : p.frame.spill n + (Access.whole r.bank).bytes ≤ σ.frameSize := by
      have hstaging := hframe.staging_le
      have hscratch := hframe.scratchBase_le
      omega
    have hhere : σ.frame.read (p.frame.spill n) (Access.whole r.bank).bytes = whole r :=
      hsaved r n (by simp [List.zipIdx_cons])
    obtain ⟨d, hdecode, hd⟩ := exists_decode?_whole (Contents.length_read :
      (σ.frame.read (p.frame.spill n) (Access.whole r.bank).bytes).length = _)
    rw [hhere] at hd
    have hload : M.perform σ (.load (.whole r.bank) r .frame (frameOffset (p.frame.spill n))) =
        some (M.put σ r d.bytes) :=
      perform_load_frame ⟨Access.bank_whole _, hpool.1⟩ hroom (hsize ▸ hframe.size_lt) hdecode
    have hsize₁ : (M.put σ r d.bytes).frameSize = p.frame.size := hsize
    have hsaved₁ : Saved p.frame whole (l.zipIdx (n + 1)) (M.put σ r d.bytes) := fun r' k hmem =>
      hsaved r' k (by simp [List.zipIdx_cons, hmem])
    have hn₁ : n + 1 + l.length ≤ slots := by omega
    obtain ⟨σ', hexec, hworld, hframe', hsize', hwhole, hothers⟩ := ih hsize₁ hn₁ hpool.2 hsaved₁
    refine ⟨σ', by simp [exec, hload, hexec], hworld, hframe', hsize', fun r' hr' => ?_,
      fun r' hr' => ?_⟩
    · by_cases hmem : r' ∈ l
      · exact hwhole r' hmem
      · obtain rfl : r' = r := (List.mem_cons.mp hr').resolve_right hmem
        have hlength : (whole r').length = (Access.whole r'.bank).bytes := by
          rw [← hhere, Contents.length_read]
        rw [State.whole, hothers r' hmem, put_pool_self, hd]
        exact Contents.read_write_of_length hlength
    · rw [List.mem_cons, not_or] at hr'
      rw [hothers r' hr'.2, put_pool_of_ne hr'.1]

/-! ## Passing arguments -/

/-- The registers of a list hold what is in the slots of a row. -/
def Loaded (f : Frame) (level : Nat) (l : List ((Argument × DataType) × Nat)) (σ : State) : Prop :=
  ∀ a type j, ((a, type), j) ∈ l →
    (σ.registers.arguments a).read 0 (Access.slot type).bytes =
      σ.frame.read (f.staging level j) (Access.slot type).bytes

lemma slot_bytes_le (type : DataType) : (Access.slot type).bytes ≤ slotBytes := by
  cases type <;> simp [Access.slot, Access.bytes, slotBytes]

lemma exec_load_from {l : List (Argument × DataType)} {n slots : Nat}
    (hframe : p.frame.Fits params slots shape vectors) (hlevel : level < shape.levels)
    (hsize : σ.frameSize = p.frame.size) (hn : n + l.length ≤ shape.width)
    (hbank : ∀ a type, (a, type) ∈ l → (Access.slot type).bank = a.bank)
    (hnodup : (l.map Prod.fst).Nodup) :
    ∃ σ', M.exec ((l.zipIdx n).map fun ((a, type), j) => .instr (.loadArg a (.slot type)
        (frameOffset (p.frame.staging level j)))) [] σ = some σ' ∧
      σ'.world = σ.world ∧ σ'.frame = σ.frame ∧ σ'.frameSize = σ.frameSize ∧
      Loaded p.frame level (l.zipIdx n) σ' ∧
      ∀ a, a ∉ l.map Prod.fst → σ'.registers.arguments a = σ.registers.arguments a := by
  induction l generalizing n σ with
  | nil => exact ⟨σ, rfl, rfl, rfl, rfl, by simp [Loaded], fun _ _ => rfl⟩
  | cons head l ih =>
    obtain ⟨a, type⟩ := head
    rw [List.length_cons] at hn
    rw [List.map_cons, List.nodup_cons] at hnodup
    have hslot : p.frame.staging level n + (Access.slot type).bytes ≤ p.frame.size := by
      have hnext : p.frame.staging level (n + 1) ≤ p.frame.scratchBase :=
        hframe.staging_le_scratch hlevel (by omega)
      have hscratch := hframe.scratchBase_le
      have hbytes := slot_bytes_le type
      rw [Frame.staging_succ] at hnext
      omega
    have hplace : σ.place? (frameOffset (p.frame.staging level n)) (Access.slot type).bytes =
        some (p.frame.staging level n) :=
      place?_frameOffset (hsize ▸ hslot) (hsize ▸ hframe.size_lt)
    set σ₁ := M.putArgument σ a (σ.frame.read (p.frame.staging level n) (Access.slot type).bytes)
      with hσ₁
    have hload : M.perform σ (.loadArg a (.slot type) (frameOffset (p.frame.staging level n))) =
        some σ₁ := by
      simp [perform, hbank a type (by simp), readAt?, hplace, hσ₁]
    have hsize₁ : σ₁.frameSize = p.frame.size := hsize
    have hn₁ : n + 1 + l.length ≤ shape.width := by omega
    obtain ⟨σ', hexec, hworld, hframe', hsize', hloaded, hothers⟩ := ih hsize₁ hn₁
      (fun a type hmem => hbank a type (List.mem_cons_of_mem _ hmem)) hnodup.2
    refine ⟨σ', by simp [exec, hload, hexec], hworld, hframe', hsize', ?_, fun b hb => ?_⟩
    · rw [Loaded, List.zipIdx_cons]
      intro b t j hmem
      rcases List.mem_cons.mp hmem with heq | hmem
      · obtain ⟨⟨rfl, rfl⟩, rfl⟩ : (b = a ∧ t = type) ∧ j = n := by simpa using heq
        have hself : σ₁.registers.arguments b = ((M.noise σ.clock).arguments b).write 0
            (σ.frame.read (p.frame.staging level j) (Access.slot t).bytes) :=
          Function.update_self _ _ _
        rw [hothers b hnodup.1, hself, hframe']
        exact Contents.read_write_of_length Contents.length_read
      · exact hloaded b t j hmem
    · rw [List.map_cons, List.mem_cons, not_or] at hb
      rw [hothers b hb.2]
      exact Function.update_of_ne hb.1 _ _

/-- The first arguments of a call are gathered in their row of the frame. -/
structure Staged (f : Frame) (level : Nat) (types : List DataType) (ds : List Datum) (σ : State) :
    Prop where
  length_eq : ds.length = types.length
  decode_eq : ∀ (j : Nat) type d, types[j]? = some type → ds[j]? = some d →
    (Access.ofType type).decode?
      (σ.frame.read (f.staging level j) (Access.ofType type).bytes) = some d

lemma ofType_bytes_le_slot {type : DataType} (h : type.isScalar) :
    (Access.ofType type).bytes ≤ (Access.slot type).bytes := by
  cases type <;> simp_all [DataType.isScalar, Access.ofType, Access.slot, Access.bytes]

/-- Loaded arguments are passed as they were gathered. -/
lemma passed?_of_loaded {types : List DataType} {arguments : List Argument} {ds : List Datum}
    (hassign : M.isa.convention.assignAll types = some arguments)
    (hstaged : Staged p.frame level types ds σ)
    (hloaded : Loaded p.frame level (arguments.zip types).zipIdx σ) :
    M.passed? σ types = some ds := by
  obtain ⟨htypes, -, -⟩ := Convention.assignAll_spec hassign
  rw [passed?, hassign]
  refine Option.mapM_eq_some_iff.mpr (List.forall₂_iff_get.mpr ⟨?_, fun j hj hj' => ?_⟩)
  · rw [List.length_zip, ← htypes.length_eq, Nat.min_self, hstaged.length_eq]
  · have hjt : j < types.length := hstaged.length_eq ▸ hj'
    have hja : j < arguments.length := htypes.length_eq ▸ hjt
    have hscalar := ((List.forall₂_iff_get.mp htypes).2 j hjt hja).1
    have hhere : (arguments.zip types).get ⟨j, hj⟩ = (arguments[j], types[j]) := by simp
    have hregister := hloaded arguments[j] types[j] j (by
      rw [List.mem_zipIdx_iff_getElem?, List.getElem?_eq_getElem hj]
      simp)
    have hlow := Contents.read_congr_of_le hregister (ofType_bytes_le_slot hscalar)
    have hdecode := hstaged.decode_eq j types[j] _ (List.getElem?_eq_getElem hjt)
      (List.getElem?_eq_getElem hj')
    rw [← hlow] at hdecode
    rw [hhere]
    exact hdecode

/-! ## The whole call -/

variable {types : List DataType} {arguments : List Argument} {ds : List Datum} {result : Option Reg}
  {type : DataType} {target : UInt64}

lemma straight_map {α : Type} {l : List α} {g : α → Instr} (h : ∀ a, g a ≠ .epilogue) :
    Straight (l.map fun a => .instr (g a)) [] :=
  Straight.instrs fun o ho => by
    obtain ⟨a, -, rfl⟩ := List.mem_map.mp ho
    exact ⟨g a, rfl, h a⟩

lemma straight_saveOps : Straight (p.saveOps held) [] := straight_map fun _ => nofun

lemma straight_restoreOps : Straight (p.restoreOps held) [] := straight_map fun _ => nofun

lemma straight_loadOps (l : List (Argument × DataType)) : Straight (p.loadOps level l) [] :=
  straight_map fun _ => nofun

lemma straight_takeOps : Straight (Plan.takeOps result) [] := by
  cases result <;> exact Straight.instrs (by simp [Plan.takeOps])

lemma straight_callOps (site : CallSite) (c : PendingCall) :
    Straight (p.callOps held level c) [site] :=
  straight_saveOps.append ((straight_loadOps _).append
    (.cons_call site _ (straight_takeOps.append straight_restoreOps)))

lemma exec_nil_append {o₁ o₂ : List Op} {σ'' : State} (h : Straight o₁ [])
    (h₁ : M.exec o₁ [] σ = some σ') (sites : List CallSite) (h₂ : M.exec o₂ sites σ' = some σ'') :
    M.exec (o₁ ++ o₂) sites σ = some σ'' := by
  have happend := exec_append (M := M) h o₂ sites σ
  rwa [List.nil_append, h₁, Option.bind_some, h₂] at happend

/-- What stands before a call. -/
structure Prepared (M : Machine) (p : Plan) (held : List Reg) (types : List DataType)
    (ds : List Datum) (σ σ' : State) : Prop where
  world_eq : σ'.world = σ.world
  size_eq : σ'.frameSize = σ.frameSize
  frame_eq : ∀ limit i, Lasting p.frame limit i → σ'.frame i = σ.frame i
  saved : Saved p.frame σ.whole held.zipIdx σ'
  passed?_eq : M.passed? σ' types = some ds

lemma exec_prepare (hisa : M.isa = p.cpu.isa)
    (hframe : p.frame.Fits params p.cpu.isa.deepest shape vectors)
    (hsize : σ.frameSize = p.frame.size) (hlevel : level < shape.levels)
    (hwidth : types.length ≤ shape.width) (hheld : held.length ≤ p.cpu.isa.deepest)
    (hpool : ∀ r ∈ held, r.index < M.isa.pool r.bank)
    (hassign : p.cpu.isa.convention.assignAll types = some arguments)
    (hstaged : Staged p.frame level types ds σ) :
    ∃ σ', M.exec (p.saveOps held ++ p.loadOps level (arguments.zip types)) [] σ = some σ' ∧
      Prepared M p held types ds σ σ' := by
  obtain ⟨htypes, hnodup, -⟩ := Convention.assignAll_spec hassign
  have hzip : (arguments.zip types).length = types.length := by
    rw [List.length_zip, ← htypes.length_eq, Nat.min_self]
  have hheld₀ : 0 + held.length ≤ p.cpu.isa.deepest := by omega
  obtain ⟨σ₁, hsave, hworld₁, -, hsize₁, hframe₁, hsaved⟩ :=
    exec_save_from hframe (by omega) hsize hheld₀ hpool
  have hstaged₁ : Staged p.frame level types ds σ₁ := by
    refine ⟨hstaged.length_eq, fun j type d ht hd => ?_⟩
    rw [← hstaged.decode_eq j type d ht hd]
    refine congrArg _ (Contents.read_congr fun i _ => hframe₁ _ (.inr ?_))
    exact Nat.le_trans (Frame.stagingBase_le_staging level j) (Nat.le_add_right _ _)
  have hbank (a : Argument) (type : DataType) (hmem : (a, type) ∈ arguments.zip types) :
      (Access.slot type).bank = a.bank := by
    obtain ⟨hscalar, hbank⟩ := List.forall₂_zip htypes.flip hmem
    obtain ⟨hno, hvector⟩ := DataType.isScalar_iff.mp hscalar
    rw [hbank, Access.bank_slot hno hvector]
  have hdifferent : ((arguments.zip types).map Prod.fst).Nodup := by
    rwa [List.map_fst_zip (Nat.le_of_eq htypes.length_eq.symm)]
  have hwidth₀ : 0 + (arguments.zip types).length ≤ shape.width := by omega
  obtain ⟨σ₂, hload, hworld₂, hframe₂, hsize₂, hloaded, -⟩ :=
    exec_load_from (M := M) hframe hlevel (hsize₁.trans hsize) hwidth₀ hbank hdifferent
  refine ⟨σ₂, exec_nil_append straight_saveOps hsave [] hload, hworld₂.trans hworld₁,
    hsize₂.trans hsize₁, fun limit i hi => ?_, fun r k hmem => ?_, ?_⟩
  · rw [hframe₂, hframe₁]
    rcases hi with hi | hi
    · exact .inl (by simpa [Frame.spill] using hi)
    · exact .inr hi.1
  · rw [hframe₂]
    exact hsaved r k hmem
  · refine passed?_of_loaded (hisa ▸ hassign) ⟨hstaged.length_eq, ?_⟩ hloaded
    rw [hframe₂]
    exact hstaged₁.decode_eq

/-- Behind a call its result is taken, and what was saved is restored. -/
lemma exec_finish {whole : Reg → List UInt8}
    (hframe : p.frame.Fits params p.cpu.isa.deepest shape vectors) (hlevels : 0 < shape.levels)
    (hsize : σ.frameSize = p.frame.size) (hheld : held.length ≤ p.cpu.isa.deepest)
    (hpool : ∀ r ∈ held, r.index < M.isa.pool r.bank)
    (hresult : ∀ r, result = some r → r ∉ held ∧ r.index < M.isa.pool r.bank)
    (hsaved : Saved p.frame whole held.zipIdx σ) :
    ∃ σ', M.exec (Plan.takeOps result ++ p.restoreOps held) [] σ = some σ' ∧
      σ'.world = σ.world ∧ σ'.frame = σ.frame ∧ σ'.frameSize = σ.frameSize ∧
      (∀ r ∈ held, σ'.whole r = whole r) ∧
      ∀ r, result = some r →
        σ'.whole r = (σ.registers.results r.bank).read 0 (Access.whole r.bank).bytes := by
  have hheld₀ : 0 + held.length ≤ p.cpu.isa.deepest := by omega
  cases result with
  | none =>
    obtain ⟨σ', hexec, hworld, hframe', hsize', hwhole, -⟩ :=
      exec_restore_from hframe hlevels hsize hheld₀ hpool hsaved
    exact ⟨σ', hexec, hworld, hframe', hsize', hwhole, by simp⟩
  | some r =>
    obtain ⟨hnotin, hindex⟩ := hresult r rfl
    set bytes := (σ.registers.results r.bank).read 0 (Access.whole r.bank).bytes with hbytes
    have hhas : M.Has (.whole r.bank) r := ⟨Access.bank_whole _, hindex⟩
    have htake : M.perform σ (.takeResult r) = some (M.put σ r bytes) := by
      simp [perform, hhas, hbytes]
    have hsize₁ : (M.put σ r bytes).frameSize = p.frame.size := hsize
    have hsaved₁ : Saved p.frame whole held.zipIdx (M.put σ r bytes) := hsaved
    obtain ⟨σ', hexec, hworld, hframe', hsize', hwhole, hothers⟩ :=
      exec_restore_from hframe hlevels hsize₁ hheld₀ hpool hsaved₁
    refine ⟨σ', ?_, hworld, hframe', hsize', hwhole, fun r' hr' => ?_⟩
    · simp only [Plan.takeOps, Option.map_some, Option.toList_some, List.cons_append,
        List.nil_append, exec, htake, Option.bind_some]
      exact hexec
    · obtain rfl := Option.some.inj hr'
      rw [State.whole, hothers r hnotin, put_pool_self]
      exact Contents.read_write_of_length Contents.length_read

/-- Prepared for a call, the machine calls and goes on. -/
lemma exec_callOps {site : CallSite}
    (hprepare : M.exec (p.saveOps held ++ p.loadOps level (arguments.zip types)) [] σ = some σ') :
    M.exec (p.callOps held level ⟨target, arguments.zip types, result⟩) [site] σ =
      (M.call σ' site target).bind (M.exec (Plan.takeOps result ++ p.restoreOps held) []) := by
  have hstraight : Straight (p.saveOps held ++ p.loadOps level (arguments.zip types)) [] :=
    straight_saveOps.append (straight_loadOps _)
  have happend := exec_append (M := M) hstraight
    (.transfer (.call target) :: (Plan.takeOps result ++ p.restoreOps held)) [site] σ
  rw [List.nil_append] at happend
  rw [Plan.callOps, ← List.append_assoc, happend, hprepare, Option.bind_some, exec]

/-- Across a call and what follows it, what is waited for is kept. -/
lemma Prepared.keeps {σ₁ σ₂ : State} (h : Prepared M p held types ds σ σ₁)
    (hsize : σ₂.frameSize = σ₁.frameSize) (hframe : σ₂.frame = σ₁.frame)
    (hwhole : ∀ r ∈ held, σ₂.whole r = σ.whole r) : Keeps p.frame held limit σ σ₂ where
  size_eq := hsize.trans h.size_eq
  whole_eq := hwhole
  frame_eq i hi := by rw [hframe, h.frame_eq limit i hi]

/-- A call whose result is used as the value of a tree. -/
lemma runs_call (hisa : M.isa = p.cpu.isa)
    (hframe : p.frame.Fits params p.cpu.isa.deepest shape vectors)
    (hsize : σ.frameSize = p.frame.size) (hlevel : level < shape.levels)
    (hwidth : types.length ≤ shape.width) (hpending : Pending M.isa held depth)
    (hdepth : depth < M.isa.pool (Bank.ofType type))
    (hassign : p.cpu.isa.convention.assignAll types = some arguments)
    (hstaged : Staged p.frame level types ds σ) (values : List Datum) :
    M.Runs σ (p.callOps held level ⟨target, arguments.zip types, some (Plan.slotOf type depth)⟩)
      [⟨types, some type⟩]
      (do
        let result ← (M.setting values).call target ds
        let d ← .ofOption result
        if d.fits type then pure d else failure)
      (Leaves p.frame held limit σ type depth) := by
  have hheld : held.length ≤ p.cpu.isa.deepest := by
    have hpool : M.isa.pool (Bank.ofType type) ≤ p.cpu.isa.deepest := by
      rw [hisa, Isa.deepest]
      cases Bank.ofType type
      · exact Nat.le_max_left _ _
      · exact Nat.le_max_right _ _
    rw [hpending.length_eq]
    omega
  obtain ⟨σ₁, hprepare, hprepared⟩ := exec_prepare hisa hframe hsize hlevel hwidth hheld
    hpending.in_pool hassign hstaged
  have hcall := Setting.call_apply (M.setting values) target ds σ.world
  unfold Runs
  rw [exec_callOps hprepare, Evaluation.bind_apply, hcall]
  cases houtside : M.outside σ.world ⟨target, ds⟩ with
  | none =>
    have hmachine : M.call σ₁ ⟨types, some type⟩ target = none := by
      simp [call, hprepared.passed?_eq, hprepared.world_eq, houtside]
    rw [hmachine]
    simpa [houtside, setting] using Agree.stuck
  | some answer =>
    obtain ⟨_ | d, memory⟩ := answer
    · have hmachine : M.call σ₁ ⟨types, some type⟩ target = none := by
        simp [call, hprepared.passed?_eq, hprepared.world_eq, houtside]
      rw [hmachine]
      simpa [houtside, setting] using Agree.stuck
    · by_cases hfits : d.fits type
      · set σ₂ := M.putResult { σ₁ with world := ⟨memory, ⟨target, ds⟩ :: σ.world.calls⟩ }
          (.ofType type) d.bytes with hσ₂
        have hmachine : M.call σ₁ ⟨types, some type⟩ target = some σ₂ := by
          simp [call, hprepared.passed?_eq, hprepared.world_eq, houtside, hfits, hσ₂]
        have hslot : ∀ r, some (Plan.slotOf type depth) = some r →
            r ∉ held ∧ r.index < M.isa.pool r.bank := by
          rintro r ⟨⟩
          exact ⟨hpending.slotOf_notMem, by simpa using hdepth⟩
        have hsaved : Saved p.frame σ.whole held.zipIdx σ₂ := hprepared.saved
        have hsize₂ : σ₂.frameSize = p.frame.size := hprepared.size_eq.trans hsize
        obtain ⟨σ₃, hfinish, hworld, hframe₃, hsize₃, hwhole, htaken⟩ :=
          exec_finish hframe (by omega) hsize₂ hheld hpending.in_pool hslot hsaved
        have hholds : Holds σ₃ (Plan.slotOf type depth) type d := by
          refine ⟨bank_slotOf _ _, hfits, ?_⟩
          have hresult : σ₂.registers.results (Bank.ofType type) =
              ((M.noise σ₁.clock).results (Bank.ofType type)).write 0 d.bytes :=
            Function.update_self _ _ _
          have htaken' := htaken _ rfl
          rw [bank_slotOf, hresult, State.whole, bank_slotOf] at htaken'
          rw [Contents.read_congr_of_le htaken' (Datum.length_bytes_le hfits), Contents.read_write]
        rw [hmachine, Option.bind_some, hfinish]
        have hdone := Agree.done (R := Leaves p.frame held limit σ type depth)
          ⟨hprepared.keeps hsize₃ hframe₃ hwhole, hholds⟩
        have hworld' : σ₃.world = ⟨memory, ⟨target, ds⟩ :: σ.world.calls⟩ := hworld
        rw [hworld'] at hdone
        simpa [houtside, setting, hfits] using hdone
      · have hmachine : M.call σ₁ ⟨types, some type⟩ target = none := by
          simp [call, hprepared.passed?_eq, hprepared.world_eq, houtside, hfits]
        rw [hmachine]
        simpa [houtside, setting, hfits] using Agree.stuck

/-- A call whose result is not used. -/
lemma runs_call_unused (hisa : M.isa = p.cpu.isa)
    (hframe : p.frame.Fits params p.cpu.isa.deepest shape vectors)
    (hsize : σ.frameSize = p.frame.size) (hlevel : level < shape.levels)
    (hwidth : types.length ≤ shape.width)
    (hresult : ∀ r, result = some r → r.index < M.isa.pool r.bank)
    (hassign : p.cpu.isa.convention.assignAll types = some arguments)
    (hstaged : Staged p.frame level types ds σ) (values : List Datum) :
    M.Runs σ (p.callOps [] level ⟨target, arguments.zip types, result⟩) [⟨types, none⟩]
      ((M.setting values).call target ds) fun _ σ' => Keeps p.frame [] limit σ σ' := by
  have hnone : ∀ r ∈ ([] : List Reg), r.index < M.isa.pool r.bank := by simp
  obtain ⟨σ₁, hprepare, hprepared⟩ :=
    exec_prepare hisa hframe hsize hlevel hwidth (Nat.zero_le _) hnone hassign hstaged
  have hcall := Setting.call_apply (M.setting values) target ds σ.world
  unfold Runs
  rw [exec_callOps hprepare, hcall]
  cases houtside : M.outside σ.world ⟨target, ds⟩ with
  | none =>
    have hmachine : M.call σ₁ ⟨types, none⟩ target = none := by
      simp [call, hprepared.passed?_eq, hprepared.world_eq, houtside]
    rw [hmachine]
    simpa [houtside, setting] using Agree.stuck
  | some answer =>
    obtain ⟨d, memory⟩ := answer
    set σ₂ := M.forget { σ₁ with world := ⟨memory, ⟨target, ds⟩ :: σ.world.calls⟩ } with hσ₂
    have hmachine : M.call σ₁ ⟨types, none⟩ target = some σ₂ := by
      simp [call, hprepared.passed?_eq, hprepared.world_eq, houtside, hσ₂]
    have hsize₂ : σ₂.frameSize = p.frame.size := hprepared.size_eq.trans hsize
    obtain ⟨σ₃, hfinish, hworld, hframe₃, hsize₃, hwhole, -⟩ :=
      exec_finish hframe (by omega) hsize₂ (Nat.zero_le _) hnone
        (fun r hr => ⟨by simp, hresult r hr⟩) hprepared.saved
    rw [hmachine, Option.bind_some, hfinish]
    have hdone := Agree.done (a := d) (R := fun _ σ' => Keeps p.frame [] limit σ σ')
      (hprepared.keeps hsize₃ hframe₃ hwhole)
    have hworld' : σ₃.world = ⟨memory, ⟨target, ds⟩ :: σ.world.calls⟩ := hworld
    rw [hworld'] at hdone
    simpa [houtside, setting] using hdone

end Machine

end TreeCode
