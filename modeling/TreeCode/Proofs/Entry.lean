import Mathlib.Tactic.Common
import TreeCode.Proofs.Simulation

/-!
# Entering a method

The prologue makes the frame and puts the arguments into their slots; then the first block begins.
-/

namespace TreeCode

/-! ## The frame is small -/

namespace Plan

variable {p : Plan} {s : Scope} {final : Bool} {index : Nat} {n : Node} {ns : List Node}
  {b : Block} {bs : List Block} {ops : List Op} {u : Unit}

/-- Every tree of a block that is lowered is lowered. -/
lemma exists_treetop_of_trees (h : (p.trees final ns).Yields ops u) (hn : n ∈ ns) :
    ∃ last own, (p.treetop last n).Yields own () := by
  induction ns generalizing ops with
  | nil => simp at hn
  | cons n' ns ih =>
    obtain ⟨o₁, o₂, h₁, h₂, rfl⟩ := yields_trees_cons_iff.mp h
    rcases List.mem_cons.mp hn with rfl | hn
    · exact ⟨_, _, h₁⟩
    · exact ih h₂ hn

lemma exists_treetop_of_blocksFrom (h : (p.blocksFrom index bs).Yields ops u) (hb : b ∈ bs)
    (hn : n ∈ b.trees) : ∃ last own, (p.treetop last n).Yields own () := by
  induction bs generalizing index ops with
  | nil => simp at hb
  | cons b' bs ih =>
    obtain ⟨o₁, o₂, h₁, h₂, rfl⟩ := yields_blocksFrom_cons_iff.mp h
    rcases List.mem_cons.mp hb with rfl | hb
    · exact exists_treetop_of_trees h₁ hn
    · exact ih h₂ hb

end Plan

lemma Isa.deepest_le (isa : Isa) : isa.deepest ≤ 16 := by
  cases isa <;> decide

namespace Method

variable {m : Method} {cpu : Cpu} {fallback : VectorFallback} {ops : List Op} {u : Unit}

/-- The frame of a lowered method, if its calls are not nested too deep. -/
lemma size_plan_lt (hlower : (m.lower cpu fallback).Yields ops u) (htyped : m.WellTyped)
    (hlevels : (Node.callShapes m.trees).levels ≤ 1024) :
    (m.plan cpu fallback).frame.size < 2 ^ 31 := by
  obtain ⟨arguments, blocks, hassign, hblocks, -⟩ := ops_of_lower hlower
  refine Frame.size_plan_lt (Isa.length_le_of_assignAll hassign) (Isa.deepest_le _)
    (Node.width_callShapes_le fun n hn => ?_) hlevels
  obtain ⟨b, hb, hn⟩ := List.mem_flatMap.mp hn
  obtain ⟨last, own, hown⟩ := Plan.exists_treetop_of_blocksFrom hblocks hb hn
  obtain ⟨op, type, imm, children⟩ := n
  obtain ⟨body, tail, hplaced, -⟩ := Plan.placed_of_treetop hown
  exact (hplaced.sited (htyped.trees_typed b hb _ hn)).width_le

end Method

/-! ## The prologue -/

namespace Machine

variable {M : Machine} {p : Plan} {m : Method} {cpu : Cpu} {fallback : VectorFallback}
  {params slots : Nat} {shape : CallShape} {vectors : Bool} {σ : State} {values : List Datum}

lemma exec_spill_from {l : List (Argument × DataType)} {n : Nat}
    (hframe : p.frame.Fits params slots shape vectors) (hsize : σ.frameSize = p.frame.size)
    (hn : n + l.length ≤ params)
    (hbank : ∀ a type, (a, type) ∈ l → (Access.slot type).bank = a.bank) :
    ∃ σ', M.exec ((l.zipIdx n).map fun ((a, type), i) => .instr (.spillArg a (.slot type)
        (frameOffset (p.frame.param i)))) [] σ = some σ' ∧
      σ'.world = σ.world ∧ σ'.frameSize = σ.frameSize ∧
      (∀ i < p.frame.param n, σ'.frame i = σ.frame i) ∧
      ∀ a type i, ((a, type), i) ∈ l.zipIdx n →
        σ'.frame.read (p.frame.param i) (Access.slot type).bytes =
          (σ.registers.arguments a).read 0 (Access.slot type).bytes := by
  induction l generalizing n σ with
  | nil => exact ⟨σ, rfl, rfl, rfl, fun _ _ => rfl, by simp⟩
  | cons head l ih =>
    obtain ⟨a, type⟩ := head
    rw [List.length_cons] at hn
    have hbytes := slot_bytes_le type
    have hnext : p.frame.param n + slotBytes = p.frame.param (n + 1) := by
      simp only [Frame.param, slotBytes]
      omega
    have hslot : p.frame.param n + (Access.slot type).bytes ≤ σ.frameSize := by
      have hparams : p.frame.param (n + 1) ≤ params * slotBytes := Nat.mul_le_mul_right _ (by omega)
      have hspill := hframe.params_le
      have hall := hframe.spillBase_le_size
      omega
    set bytes := (σ.registers.arguments a).read 0 (Access.slot type).bytes with hread
    have hlength : bytes.length = (Access.slot type).bytes := Contents.length_read
    have hspill : M.perform σ (.spillArg a (.slot type) (frameOffset (p.frame.param n))) =
        some (σ.store (p.frame.param n) bytes) := by
      have hplace := place?_frameOffset (hlength ▸ hslot) (hsize ▸ hframe.size_lt)
      simp [perform, hbank a type (by simp), writeAt?, ← hread, hplace]
    have hsize₁ : (σ.store (p.frame.param n) bytes).frameSize = p.frame.size := hsize
    have hn₁ : n + 1 + l.length ≤ params := by omega
    obtain ⟨σ', hexec, hworld, hsize', hframe', hspilled⟩ := ih hsize₁ hn₁
      fun a type hmem => hbank a type (List.mem_cons_of_mem _ hmem)
    refine ⟨σ', by simp [exec, hspill, hexec], hworld, hsize', fun i hi => ?_,
      fun b t i hmem => ?_⟩
    · rw [hframe' i (by omega)]
      exact Contents.write_of_lt hi
    · rw [List.zipIdx_cons] at hmem
      rcases List.mem_cons.mp hmem with heq | hmem
      · obtain ⟨⟨rfl, rfl⟩, rfl⟩ : (b = a ∧ t = type) ∧ i = n := by simpa using heq
        have hkept : σ'.frame.read (p.frame.param i) (Access.slot t).bytes =
            (σ.store (p.frame.param i) bytes).frame.read (p.frame.param i) (Access.slot t).bytes :=
          Contents.read_congr fun k hk => hframe' _ (by omega)
        rw [hkept]
        exact Contents.read_write_of_length hlength
      · exact hspilled b t i hmem

/-- Behind the prologue the values of the parameters are in their slots. -/
lemma exec_entry {arguments : List Argument}
    (hframe : p.frame.Fits m.params.length slots shape vectors)
    (hassign : M.isa.convention.assignAll m.params = some arguments)
    (hpasses : M.Passes σ m.params values) :
    ∃ σ', M.exec (.instr (.prologue (UInt32.ofNat p.frame.size)) ::
        p.spillOps (arguments.zip m.params)) [] σ = some σ' ∧ σ'.world = σ.world ∧
      Ready p.frame m.params values σ' := by
  obtain ⟨htypes, -, -⟩ := Convention.assignAll_spec hassign
  have hbank (a : Argument) (type : DataType) (hmem : (a, type) ∈ arguments.zip m.params) :
      (Access.slot type).bank = a.bank := by
    obtain ⟨hscalar, hbank⟩ := List.forall₂_zip htypes.flip hmem
    obtain ⟨hno, hvector⟩ := DataType.isScalar_iff.mp hscalar
    rw [hbank, Access.bank_slot hno hvector]
  set σ₁ : State := { σ.tick with frameSize := (UInt32.ofNat p.frame.size).toNat } with hσ₁
  have hsize : σ₁.frameSize = p.frame.size := by
    have hlt := hframe.size_lt
    exact Nat.mod_eq_of_lt (by omega)
  have hlength : 0 + (arguments.zip m.params).length ≤ m.params.length := by
    simp [htypes.length_eq]
  obtain ⟨σ', hexec, hworld, hsize', -, hspilled⟩ :=
    exec_spill_from (M := M) hframe hsize hlength hbank
  refine ⟨σ', ?_, hworld, hsize'.trans hsize, fun i type hi hscalar => ?_⟩
  · rw [exec, perform, Option.bind_some]
    exact hexec
  · obtain ⟨hlt, -⟩ := List.getElem?_eq_some_iff.mp hi
    have hargument : i < arguments.length := htypes.length_eq ▸ hlt
    have hzip : (arguments.zip m.params)[i]? = some (arguments[i], type) := by
      rw [List.getElem?_zip_eq_some]
      exact ⟨List.getElem?_eq_getElem hargument, hi⟩
    obtain ⟨d, hd, hencode⟩ := hpasses arguments hassign i _ _ hzip
    have hslot := hspilled arguments[i] type i (List.mem_zipIdx_iff_getElem?.mpr hzip)
    rw [Contents.read_congr_of_le hslot (ofType_bytes_le_slot hscalar), hd, Option.bind_some,
      DataType.passed?, hencode, Option.bind_some]
    rfl

end Machine

/-! ## The program of a method -/

namespace Method

variable {m : Method} {cpu : Cpu} {fallback : VectorFallback} {ops : List Op} {u : Unit}

/-- The prologue of a method. -/
def entryOps (m : Method) (p : Plan) (arguments : List Argument) : List Op :=
  .instr (.prologue (UInt32.ofNat p.frame.size)) :: p.spillOps (arguments.zip m.params)

lemma straight_entryOps (p : Plan) (arguments : List Argument) :
    Straight (m.entryOps p arguments) [] :=
  .cons_instr (by nofun) (Machine.straight_map fun _ => nofun)

/-- The first block stands behind the prologue. -/
lemma stands_entry (hlower : (m.lower cpu fallback).Yields (m.lower cpu fallback).ops ())
    (hne : m.blocks ≠ []) :
    ∃ arguments b trees blocks, cpu.isa.convention.assignAll m.params = some arguments ∧
      (m.program cpu fallback).ops = m.entryOps (m.plan cpu fallback) arguments ++
        .bind 0 :: (trees ++ (blocks ++ (m.plan cpu fallback).ending)) ∧
      (m.program cpu fallback).Stands (m.plan cpu fallback) m (.start 0) b
        (m.entryOps (m.plan cpu fallback) arguments ++ [.bind 0]) trees blocks [] := by
  obtain ⟨arguments, body, hassign, hbody, hops⟩ := ops_of_lower hlower
  obtain ⟨b, bs, hbs⟩ := List.exists_cons_of_ne_nil hne
  rw [hbs] at hbody
  obtain ⟨trees, blocks, htrees, hblocks, rfl⟩ := Plan.yields_blocksFrom_cons_iff.mp hbody
  have hops' : (m.program cpu fallback).ops = m.entryOps (m.plan cpu fallback) arguments ++
      .bind 0 :: (trees ++ (blocks ++ (m.plan cpu fallback).ending)) := by
    simpa [entryOps, program] using hops
  have hplain := Plan.plain_of_straight (m.straight_entryOps (m.plan cpu fallback) arguments)
  refine ⟨arguments, b, trees, blocks, hassign, hops', ?_, ?_, ?_, ?_, ?_, ?_, ?_, ?_⟩
  · simp [hbs, Position.start]
  · simpa [hbs, Position.start] using htrees
  · simpa [hbs, Position.start] using hblocks
  · simp [hops']
  · simp [program, callSites, Method.trees, Node.sitesOf, hbs, Position.start]
  · simpa [Op.isCall] using hplain.calls_eq
  · rw [List.reverse_append]
    rfl
  · intro label hmem
    rcases List.mem_append.mp hmem with hmem | hmem
    · exact (hplain.no_label label hmem).elim
    · obtain rfl : label = 0 := by simpa using hmem
      exact Nat.le_refl 0

/-- The program of a method that is lowered. -/
theorem lowers_program (hlower : (m.lower cpu fallback).Yields (m.lower cpu fallback).ops ())
    (htyped : m.WellTyped) (hflow : m.checkFlow = .ok ())
    (hlevels : (Node.callShapes m.trees).levels ≤ 1024) :
    (m.program cpu fallback).Lowers (m.plan cpu fallback) m where
  wellTyped := htyped
  flows := hflow
  blocks_eq := rfl
  fits := Frame.fits_plan m cpu.isa.deepest (size_plan_lt hlower htyped hlevels)
  starts k hk := by
    obtain ⟨arguments, b, trees, blocks, -, hops, hstands⟩ :=
      stands_entry hlower htyped.blocks_ne_nil
    have hplain := Plan.plain_of_straight (m.straight_entryOps (m.plan cpu fallback) arguments)
    exact Program.Stands.exists_start hops hplain.no_label hstands htyped.trees_typed hk

end Method

namespace Machine

variable {M : Machine} {m : Method} {cpu : Cpu} {fallback : VectorFallback} {σ : State}
  {values : List Datum}

/-- From the beginning of the program to the first block. -/
theorem related_entry (hisa : M.isa = cpu.isa)
    (hlower : (m.lower cpu fallback).Yields (m.lower cpu fallback).ops ())
    (h : (m.program cpu fallback).Lowers (m.plan cpu fallback) m)
    (hpasses : M.Passes σ m.params values) :
    ∃ t c, M.run (m.program cpu fallback) t (.running 0 σ) = some c ∧
      Related (m.program cpu fallback) (m.plan cpu fallback) m values
        (.at (.start 0), σ.world) c := by
  obtain ⟨arguments, b, trees, blocks, hassign, hops, hstands⟩ :=
    Method.stands_entry hlower h.wellTyped.blocks_ne_nil
  obtain ⟨σ', hexec, hworld, hready⟩ := exec_entry h.fits (hisa ▸ hassign) hpasses
  have hsites : (m.program cpu fallback).sites = [] ++ ([] ++ m.callSites) := rfl
  have hops' : (m.program cpu fallback).ops =
      [] ++ (m.entryOps (m.plan cpu fallback) arguments ++ _) := hops
  have hrun := run_straight (M := M) hops' hsites rfl
    (m.straight_entryOps (m.plan cpu fallback) arguments) σ
  have hexec' : M.exec (m.entryOps (m.plan cpu fallback) arguments) [] σ = some σ' := hexec
  rw [hexec', Option.map_some, List.length_nil, Nat.zero_add] at hrun
  rw [← hworld]
  refine ⟨(m.entryOps (m.plan cpu fallback) arguments).length + 1, _, ?_, .at hstands
    (Method.continues_start h.flows hstands.block_eq) hready⟩
  rw [run_add, hrun, Option.bind_some, run_bind hops]

end Machine

end TreeCode
