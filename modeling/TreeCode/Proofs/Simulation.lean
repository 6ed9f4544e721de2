import Mathlib.Order.Monotone.Basic
import Mathlib.Tactic.Common
import TreeCode.Proofs.Programs

/-!
# Methods are simulated

Step by step the program of a method goes on as evaluation of the method does: one tree, or the way
from one block to the next, is one or more operations.  The relation between the two says where the
place between the trees is in the program, that the parameters are in their slots, and that there is
still something to do in the last block.
-/

namespace TreeCode

/-! ## Flow of control -/

namespace Method

variable {m : Method} {b : Block} {k : Nat}

lemma blockDefect?_spec {count index : Nat} {bs : List Block}
    (h : blockDefect? count index bs = none) (hb : bs[k]? = some b) :
    (∃ t, b.terminator? = some t ∧ b.trees.length ≤ t + 1) ∨ index + k + 1 < count := by
  induction bs generalizing index k with
  | nil => simp at hb
  | cons b₀ bs ih =>
    have hfirst : (∃ t, b₀.terminator? = some t ∧ b₀.trees.length ≤ t + 1) ∨ index + 1 < count := by
      rw [blockDefect?] at h
      split at h
      · rename_i t ht
        split at h
        · simp at h
        · exact .inl ⟨t, ht, by omega⟩
      · split at h
        · exact .inr ‹_›
        · simp at h
    have hrest : blockDefect? count (index + 1) bs = none := by
      rw [blockDefect?] at h
      split at h <;> split at h <;> first | exact h | simp at h
    cases k with
    | zero =>
      obtain rfl : b₀ = b := by simpa using hb
      exact hfirst
    | succ k =>
      refine (ih hrest (by simpa using hb)).imp_right fun hlt => ?_
      omega

/-- A block of a method whose flow has been checked ends with a tree behind which control does not
go on, or another block follows. -/
lemma ends_of_checkFlow (h : m.checkFlow = .ok ()) (hb : m.blocks[k]? = some b) :
    (∃ t, b.terminator? = some t ∧ b.trees.length ≤ t + 1) ∨ k + 1 < m.blocks.length := by
  unfold checkFlow at h
  split at h
  · simp at h
  · rename_i hdefect
    simpa using blockDefect?_spec hdefect hb

/-- There is something to do at a place of a method, or another block follows. -/
def Continues (m : Method) (pos : Position) (b : Block) : Prop :=
  pos.block + 1 < m.blocks.length ∨ pos.tree < b.trees.length

lemma continues_start (h : m.checkFlow = .ok ()) (hb : m.blocks[k]? = some b) :
    m.Continues (.start k) b := by
  rcases ends_of_checkFlow h hb with ⟨t, ht, -⟩ | hlt
  · obtain ⟨ht, -⟩ := List.findIdx?_eq_some_iff_getElem.mp ht
    exact .inr (Nat.lt_of_le_of_lt (Nat.zero_le t) ht)
  · exact .inl hlt

/-- Behind a tree that control goes on behind. -/
lemma continues_next {pos : Position} {n : Node} (h : m.checkFlow = .ok ())
    (hb : m.blocks[pos.block]? = some b) (hn : b.trees[pos.tree]? = some n)
    (hgoes : n.endsBlock = false) : m.Continues pos.next b := by
  rcases ends_of_checkFlow h hb with ⟨t, ht, hlast⟩ | hlt
  · obtain ⟨htlt, hends, -⟩ := List.findIdx?_eq_some_iff_getElem.mp ht
    have hpos := (List.getElem?_eq_some_iff.mp hn).1
    have hne : pos.tree ≠ t := by
      rintro rfl
      rw [List.getElem?_eq_getElem htlt, Option.some.injEq] at hn
      rw [hn, hgoes] at hends
      simp at hends
    refine .inr ?_
    simp only [Position.next]
    omega
  · exact .inl hlt

end Method

/-! ## The machine at the places of a program -/

namespace Machine

variable {M : Machine} {P : Program} {p : Plan} {m : Method} {σ : State} {front back : List Op}

lemma getElem?_front {o : Op} (h : P.ops = front ++ o :: back) : P.ops[front.length]? = some o := by
  simp [h]

lemma run_one (pc : Nat) (σ : State) : M.run P 1 (.running pc σ) = M.step P pc σ := by
  rw [run]
  cases M.step P pc σ <;> rfl

lemma run_bind {label : Nat} (h : P.ops = front ++ .bind label :: back) :
    M.run P 1 (.running front.length σ) = some (.running (front ++ [Op.bind label]).length σ) := by
  simp [run_one, step, getElem?_front h]

lemma run_jump {label place : Nat} (h : P.ops = front ++ .transfer (.jump label) :: back)
    (hplace : P.place? label = some place) :
    M.run P 1 (.running front.length σ) = some (.running place σ) := by
  simp [run_one, step, getElem?_front h, hplace]

lemma run_branch {label place : Nat} {c : Condition} {a b : Int}
    (h : P.ops = front ++ .transfer (.branchIf c label) :: back)
    (hplace : P.place? label = some place) (hcomparison : σ.comparison = some (a, b)) :
    M.run P 1 (.running front.length σ) = some (.running
      (if c.holds a b then place else (front ++ [Op.transfer (.branchIf c label)]).length) σ) := by
  cases hholds : c.holds a b <;>
    simp [run_one, step, getElem?_front h, hcomparison, hholds, hplace]

lemma run_ending (h : P.ops = front ++ p.ending) :
    M.run P 2 (.running front.length σ) = some (.returned σ) := by
  have hbind : M.run P 1 (.running front.length σ) =
      some (.running (front ++ [Op.bind p.epilogue]).length σ) := run_bind h
  have hend : P.ops = (front ++ [.bind p.epilogue]) ++ [.instr .epilogue] := by
    simp [h, Plan.ending]
  rw [run_add 1 1, hbind, Option.bind_some, run_one, step, getElem?_front hend]

end Machine

/-! ## Evaluation step by step -/

/-- Does what comes next in a method that has not returned. -/
def Setting.advance (s : Setting) (m : Method) : Progress × World → Option (Progress × World)
  | (.at pos, w) => s.step m pos w
  | (.returned result, w) => some (.returned result, w)

/-- How far evaluation of a method has come after so many steps. -/
def Method.after (m : Method) (s : Setting) (w : World) : Nat → Option (Progress × World)
  | 0 => some (.at (.start 0), w)
  | n + 1 => (m.after s w n).bind (s.advance m)

/-- A program of a method in which every block stands behind its label. -/
structure Program.Lowers (P : Program) (p : Plan) (m : Method) : Prop where
  wellTyped : m.WellTyped
  flows : m.checkFlow = .ok ()
  blocks_eq : p.blocks = m.blocks.length
  fits : p.frame.Fits m.params.length p.cpu.isa.deepest (Node.callShapes m.trees)
    (m.trees.any Node.hasVector)
  starts : ∀ k < m.blocks.length, ∃ b front trees blocks before,
    P.ops = front ++ .bind k :: (trees ++ (blocks ++ p.ending)) ∧
    P.Stands p m (.start k) b (front ++ [.bind k]) trees blocks before ∧
    P.place? k = some front.length

namespace Machine

variable {M : Machine} {P : Program} {p : Plan} {m : Method} {values : List Datum} {σ : State}

/-- Evaluation and the machine at the same place, or both behind the end of the method. -/
inductive Related (P : Program) (p : Plan) (m : Method) (values : List Datum) :
    Progress × World → Config → Prop
  | at {pos : Position} {b : Block} {front trees blocks : List Op} {before : List CallSite}
      {σ : State} (stands : P.Stands p m pos b front trees blocks before)
      (continues : m.Continues pos b) (ready : Ready p.frame m.params values σ) :
      Related P p m values (.at pos, σ.world) (.running front.length σ)
  | returned {result : Option Datum} {σ : State} (returns : Returns σ m.returnType result) :
      Related P p m values (.returned result, σ.world) (.returned σ)

section Steps

variable {pos : Position} {b : Block} {front trees blocks : List Op} {before : List CallSite}
  {place : Nat}

/-- The end of a method can be reached by its label. -/
lemma exists_ending (h : P.Lowers p m) :
    ∃ front, P.ops = front ++ p.ending ∧ P.place? p.epilogue = some front.length := by
  have hpos : 0 < m.blocks.length := List.length_pos_of_ne_nil h.wellTyped.blocks_ne_nil
  have hlast : m.blocks.length - 1 + 1 = m.blocks.length := by omega
  obtain ⟨b, front, trees, blocks, before, -, hstands, -⟩ :=
    h.starts (m.blocks.length - 1) (by omega)
  have htyped := h.wellTyped.trees_typed b (List.mem_of_getElem? hstands.block_eq)
  have hblocks := hstands.blocks_eq
  have hops := hstands.ops_eq
  simp only [Position.start, hlast, List.drop_length] at hblocks
  obtain ⟨rfl, -⟩ := Lowering.yields_pure_iff.mp hblocks
  refine ⟨_, ?_, hstands.place?_epilogue h.blocks_eq hlast htyped⟩
  simpa using hops

/-- A jump to a block. -/
lemma related_goto {t : Nat} {back : List Op} (h : P.Lowers p m) (ht : t < p.blocks)
    (hops : P.ops = front ++ .transfer (.jump t) :: back)
    (hready : Ready p.frame m.params values σ) :
    ∃ c, M.run P 2 (.running front.length σ) = some c ∧
      Related P p m values (.at (.start t), σ.world) c := by
  obtain ⟨b, front', trees, blocks, before, hops', hstands, hplace⟩ := h.starts t (h.blocks_eq ▸ ht)
  have hjump : M.run P 1 (.running front.length σ) = some (.running front'.length σ) :=
    run_jump hops hplace
  refine ⟨_, ?_, .at hstands (Method.continues_start h.flows hstands.block_eq) hready⟩
  rw [run_add 1 1, hjump, Option.bind_some, run_bind hops']

/-- From the end of a block to the next one. -/
lemma related_fall (h : P.Lowers p m) (hstands : P.Stands p m pos b front trees blocks before)
    (hend : b.trees.length ≤ pos.tree) (hcontinues : m.Continues pos b)
    (hready : Ready p.frame m.params values σ) :
    ∃ c, M.run P 1 (.running front.length σ) = some c ∧
      Related P p m values (.at (.start (pos.block + 1)), σ.world) c := by
  have hnext : pos.block + 1 < m.blocks.length := hcontinues.resolve_right (by omega)
  obtain ⟨b', trees', blocks', hops, hstart⟩ := hstands.fall hend hnext
  exact ⟨_, run_bind hops, .at hstart (Method.continues_start h.flows hstart.block_eq) hready⟩

/-- The end of a method. -/
lemma related_return {last : Bool} {result : Option Datum} {rest : List Op} (h : P.Lowers p m)
    (hops : P.ops = front ++ ((if last then [] else [.transfer (.jump p.epilogue)]) ++ rest))
    (hlast : last → rest = p.ending) (hreturns : Returns σ m.returnType result) :
    ∃ k c, 0 < k ∧ M.run P k (.running front.length σ) = some c ∧
      Related P p m values (.returned result, σ.world) c := by
  cases last with
  | true =>
    refine ⟨2, _, by omega, run_ending (p := p) ?_, .returned hreturns⟩
    rw [hops, hlast rfl]
    rfl
  | false =>
    obtain ⟨front', hops', hplace⟩ := exists_ending h
    have hjump : M.run P 1 (.running front.length σ) = some (.running front'.length σ) :=
      run_jump hops hplace
    refine ⟨1 + 2, _, by omega, ?_, .returned hreturns⟩
    rw [run_add 1 2, hjump, Option.bind_some, run_ending hops']

/-- Straight code of the program that does what an evaluation does, and what comes behind it. -/
lemma Runs.related {body back : List Op} {sites after : List CallSite} {ev : Evaluation Progress}
    {R : Progress → State → Prop} (hops : P.ops = front ++ (body ++ back))
    (hsites : P.sites = before ++ (sites ++ after))
    (hcalls : front.countP Op.isCall = before.length)
    (hstraight : Straight body sites) (h : M.Runs σ body sites ev R)
    (hback : ∀ next σ', R next σ' → ∃ k c, 0 < body.length + k ∧
      M.run P k (.running (front ++ body).length σ') = some c ∧
        Related P p m values (next, σ'.world) c) :
    ∃ k, 0 < k ∧ Option.Rel (Related P p m values) (ev σ.world)
      (M.run P k (.running front.length σ)) := by
  have hbody := run_straight (M := M) hops hsites hcalls hstraight σ
  unfold Runs at h
  generalize ev σ.world = r at h ⊢
  generalize M.exec body sites σ = end? at h hbody
  cases h with
  | stuck =>
    refine ⟨body.length + 1, by omega, ?_⟩
    rw [run_add, hbody]
    exact .none
  | @done next σ' hR =>
    obtain ⟨k, c, hpos, hrun, hrelated⟩ := hback _ _ hR
    refine ⟨body.length + k, hpos, ?_⟩
    rw [List.length_append] at hrun
    rw [run_add, hbody, Option.map_some, Option.bind_some, hrun]
    exact .some hrelated

/-- A tree of a block. -/
lemma related_tree {n : Node} (hisa : M.isa = p.cpu.isa) (h : P.Lowers p m)
    (hstands : P.Stands p m pos b front trees blocks before) (hn : b.trees[pos.tree]? = some n)
    (hready : Ready p.frame m.params values σ) :
    ∃ k, 0 < k ∧ Option.Rel (Related P p m values) ((M.setting values).treetop pos n σ.world)
      (M.run P k (.running front.length σ)) := by
  have hblock := List.mem_of_getElem? hstands.block_eq
  have hmem := List.mem_of_getElem? hn
  have htyped := h.wellTyped.trees_typed b hblock n hmem
  have hwithin := Node.within_of_mem (List.mem_flatMap.mpr ⟨b, hblock, hmem⟩ : n ∈ m.trees)
  obtain ⟨own, rest, hown, rfl, hnext⟩ := hstands.next hn htyped
  obtain ⟨op, type, imm, children⟩ := n
  obtain ⟨body, tail, hplaced, rfl⟩ := Plan.placed_of_treetop hown
  have hleads : Leads M p m.scope values σ pos _ _ body tail :=
    leads_of_placed hisa h.fits hplaced htyped hwithin hready
  have hops : P.ops = front ++ (body ++ (tail ++ (rest ++ (blocks ++ p.ending)))) := by
    simp [hstands.ops_eq]
  have hops' : P.ops = (front ++ body) ++ (tail ++ (rest ++ (blocks ++ p.ending))) := by
    simp [hstands.ops_eq]
  have hsites := hnext.sites_eq
  rw [List.append_assoc] at hsites
  have hready' {σ' : State} (hkeeps : Keeps p.frame [] (p.frame.staging 0 0) σ σ') :
      Ready p.frame m.params values σ' := hready.of_keeps h.fits hkeeps
  have hstraight := (hplaced.sited htyped).straight
  cases hleads with
  | next hnonempty hgoes hruns =>
    refine Runs.related hops hsites hstands.calls_eq hstraight hruns ?_
    rintro _ σ' ⟨rfl, hkeeps⟩
    rw [List.append_nil] at hnext
    refine ⟨0, _, by simpa [List.length_pos_iff] using hnonempty, rfl, ?_⟩
    exact .at hnext (Method.continues_next h.flows hstands.block_eq hn hgoes) (hready' hkeeps)
  | ret hruns =>
    refine Runs.related hops hsites hstands.calls_eq hstraight hruns ?_
    rintro _ σ' ⟨result, rfl, hreturns⟩
    -- The last tree of the last block needs no jump, as the end of the method follows.
    have hlast (hlast : ((m.blocks.drop (pos.block + 1)).isEmpty &&
        (b.trees.drop (pos.tree + 1)).isEmpty) = true) :
        rest ++ (blocks ++ p.ending) = p.ending := by
      rw [Bool.and_eq_true, List.isEmpty_iff, List.isEmpty_iff] at hlast
      obtain ⟨hblocks, htrees⟩ := hlast
      have hrest := hnext.trees_eq
      have hrest' := hnext.blocks_eq
      simp only [Position.next, hblocks, htrees] at hrest hrest'
      obtain ⟨rfl, -⟩ := Lowering.yields_pure_iff.mp hrest
      obtain ⟨rfl, -⟩ := Lowering.yields_pure_iff.mp hrest'
      rfl
    obtain ⟨k, c, hk, hrun, hc⟩ := related_return h hops' hlast hreturns
    exact ⟨k, c, by omega, hrun, hc⟩
  | goto hlt hruns =>
    refine Runs.related hops hsites hstands.calls_eq hstraight hruns ?_
    rintro _ σ' ⟨rfl, hkeeps⟩
    obtain ⟨c, hrun, hc⟩ := related_goto h hlt hops' (hready' hkeeps)
    exact ⟨2, c, by omega, hrun, hc⟩
  | @branch c t hlt hgoes hruns =>
    refine Runs.related hops hsites hstands.calls_eq hstraight hruns ?_
    rintro _ σ' ⟨hkeeps, x, y, hcomparison, rfl⟩
    obtain ⟨b', front', trees', blocks', before', hstart, hstands', hplace⟩ :=
      h.starts t (h.blocks_eq ▸ hlt)
    have hbranch := run_branch (M := M) hops' hplace hcomparison
    cases hholds : c.holds x y with
    | true =>
      rw [hholds, if_pos rfl] at hbranch
      refine ⟨1 + 1, _, by omega, ?_, .at hstands'
        (Method.continues_start h.flows hstands'.block_eq) (hready' hkeeps)⟩
      rw [run_add 1 1, hbranch, Option.bind_some, run_bind hstart]
    | false =>
      rw [hholds, if_neg (by simp)] at hbranch
      rw [← List.append_assoc] at hnext
      exact ⟨1, _, by omega, hbranch, .at hnext
        (Method.continues_next h.flows hstands.block_eq hn hgoes) (hready' hkeeps)⟩

/-- **One step of evaluation is one or more operations of the machine**, or both are stuck. -/
theorem Related.advance {c : Progress × World} {c' : Config} (hisa : M.isa = p.cpu.isa)
    (h : P.Lowers p m) (hc : Related P p m values c c') :
    ∃ k, 0 < k ∧ Option.Rel (Related P p m values) ((M.setting values).advance m c)
      (M.run P k c') := by
  rcases hc with @⟨pos, b, front, trees, blocks, before, σ, hstands, hcontinues, hready⟩ | hreturns
  · cases hn : b.trees[pos.tree]? with
    | some n =>
      have hadvance : (M.setting values).advance m (.at pos, σ.world) =
          (M.setting values).treetop pos n σ.world := by
        simp [Setting.advance, Setting.step, hstands.block_eq, hn]
      rw [hadvance]
      exact related_tree hisa h hstands hn hready
    | none =>
      have hadvance : (M.setting values).advance m (.at pos, σ.world) =
          some (.at (.start (pos.block + 1)), σ.world) := by
        simp [Setting.advance, Setting.step, hstands.block_eq, hn]
      obtain ⟨c, hrun, hc⟩ :=
        related_fall h hstands (List.getElem?_eq_none_iff.mp hn) hcontinues hready
      rw [hadvance]
      exact ⟨1, by omega, hrun ▸ .some hc⟩
  · exact ⟨1, by omega, .some (.returned hreturns)⟩

end Steps

/-- Times at which something holds, from times at which it holds once more. -/
lemma exists_time {Q : Nat → Nat → Prop} (hstart : ∃ t, Q 0 t)
    (hnext : ∀ n t, Q n t → ∃ t', t < t' ∧ Q (n + 1) t') :
    ∃ time : Nat → Nat, StrictMono time ∧ ∀ n, Q n (time n) := by
  choose! f hlt hQ using hnext
  obtain ⟨t, ht⟩ := hstart
  let time (n : Nat) : Nat := n.rec t f
  have htime (n : Nat) : Q n (time n) := by
    induction n with
    | zero => exact ht
    | succ n ih => exact hQ n (time n) ih
  exact ⟨time, strictMono_nat_of_lt_succ fun n => hlt n (time n) (htime n), htime⟩

/-- Any number of steps. -/
theorem Related.after {w : World} {c : Config} {t : Nat} {c₀ : Config} (hisa : M.isa = p.cpu.isa)
    (h : P.Lowers p m) (hstart : M.run P t c₀ = some c)
    (hc : Related P p m values (.at (.start 0), w) c) :
    ∃ time : Nat → Nat, StrictMono time ∧ ∀ n,
      Option.Rel (Related P p m values) (m.after (M.setting values) w n)
        (M.run P (time n) c₀) := by
  refine exists_time (Q := fun n t => Option.Rel (Related P p m values)
    (m.after (M.setting values) w n) (M.run P t c₀)) ⟨t, by rw [hstart]; exact .some hc⟩ ?_
  intro n t hrelated
  rw [Method.after]
  generalize m.after (M.setting values) w n = a at hrelated ⊢
  generalize hrun : M.run P t c₀ = c' at hrelated
  cases hrelated with
  | none => exact ⟨t + 1, by omega, by rw [run_add, hrun]; exact .none⟩
  | some hrelated =>
    obtain ⟨k, hk, hnext⟩ := hrelated.advance hisa h
    exact ⟨t + k, by omega, by rw [run_add, hrun]; exact hnext⟩

end Machine

end TreeCode
