import Mathlib.Tactic.Common
import TreeCode.Proofs.Effects
import TreeCode.Proofs.Outcome

/-!
# Registers that are held

Lowering passes the registers that are waited for and the number of calls around a tree along.  The
same operations come out if both are kept in one place: if an operand is pushed while the other one
is evaluated and popped afterwards, and a level is entered for the arguments of a call and left
again.  Here this is done with a ledger, in which it is also written down what was held whenever a
tree was evaluated, a call was made, or a tree of a block was left (`Method.follows_walk`).  What is
held always has ascending depths, all of them below the depth that is evaluated at
(`Ledger.Sound`).
-/

namespace TreeCode

/-- What lowering keeps in mind, and what was so before, the latest first. -/
structure Ledger where
  /-- The registers that are waited for, the latest last. -/
  held : List Reg
  /-- The number of calls around. -/
  level : Nat
  /-- What was held when a tree was evaluated, and the depth of the tree. -/
  visits : List (List Reg × Nat)
  /-- The registers that were restored behind a call, and the register of its result. -/
  calls : List (List Reg × Option Reg)
  /-- What was held, and the number of calls around, behind a tree of a block. -/
  ends : List (List Reg × Nat)

namespace Ledger

/-- Nothing has been lowered. -/
def empty : Ledger := ⟨[], 0, [], [], []⟩

/-- A register is waited for. -/
def push (r : Reg) (s : Ledger) : Ledger := { s with held := s.held ++ [r] }

/-- The latest register is not waited for any longer. -/
def pop (s : Ledger) : Ledger := { s with held := s.held.dropLast }

/-- The arguments of a call begin. -/
def enter (s : Ledger) : Ledger := { s with level := s.level + 1 }

/-- The arguments of a call end. -/
def leave (s : Ledger) : Ledger := { s with level := s.level - 1 }

/-- A tree is evaluated at a depth. -/
def visit (depth : Nat) (s : Ledger) : Ledger := { s with visits := (s.held, depth) :: s.visits }

/-- A call is made. -/
def call (result : Option Reg) (s : Ledger) : Ledger :=
  { s with calls := (s.held, result) :: s.calls }

/-- A tree of a block ends. -/
def finish (s : Ledger) : Ledger := { s with ends := (s.held, s.level) :: s.ends }

end Ledger

/-- Lowering that reads and changes a ledger.  The ledger outlives an error. -/
def Tracked (α : Type) : Type := Ledger → Lowering α × Ledger

namespace Tracked

variable {α β : Type}

/-- Lowering that produces nothing and changes nothing. -/
def pure (a : α) : Tracked α := fun s => (Lowering.pure a, s)

/-- One lowering after another; an error ends both. -/
def bind (x : Tracked α) (f : α → Tracked β) : Tracked β := fun s =>
  match (x s).1.result with
  | .error e => (⟨(x s).1.ops, (x s).1.scalarized, .error e⟩, (x s).2)
  | .ok a =>
    let y := f a (x s).2
    (⟨(x s).1.ops ++ y.1.ops, (x s).1.scalarized + y.1.scalarized, y.1.result⟩, y.2)

instance : Monad Tracked where
  pure := Tracked.pure
  bind := Tracked.bind

/-- Lowering that does not look at the ledger. -/
instance : MonadLift Lowering Tracked where
  monadLift x := fun s => (x, s)

/-- Changes the ledger. -/
def update (f : Ledger → Ledger) : Tracked Unit := fun s => (Lowering.pure (), f s)

/-- Reads the ledger. -/
def ledger : Tracked Ledger := fun s => (Lowering.pure s, s)

end Tracked

/-! ## Walking through the trees -/

namespace Plan

mutual

/-- Evaluates a tree at a depth. -/
def walk (p : Plan) (depth : Nat) : Node → Tracked Reg
  | .node op type imm children => do
    .update (.visit depth)
    if op = .call then do
      let c ← p.beginCall type imm (children.map Node.type) depth
      let before ← .ledger
      .update .enter
      walkArguments p before.level depth 0 children
      .update .leave
      .update (.call c.result)
      let after ← .ledger
      match ← p.endCall after.held before.level c with
      | some r => pure r
      | none => unsupported op type .callWithoutResult
    else do
      let dst ← p.register type depth
      match op with
      | .load =>
        match imm with
        | .parm i =>
          Lowering.instr (.load (.ofType type) dst .frame (frameOffset (p.frame.param i.toNat)))
        | _ => unsupported op type .notAValue
      | .const => constant type depth imm
      | .loadIndirect =>
        let address ← walkFirst p depth children
        Lowering.instr (.load (.ofType type) dst (.reg address.index) (accessOffset imm))
      | .rol =>
        p.checkRotation type
        let (_, count) ← walkPair p depth children
        p.rotateLeft type.isWide depth count.index
      | .neg =>
        let _ ← walkFirst p depth children
        Lowering.instr (.intNeg type.isWide depth)
      | .sqrt =>
        p.checkSquareRoot type
        let _ ← walkFirst p depth children
        Lowering.instr (.floatSqrt (type == .double) depth)
      | op =>
        match type.isVector, op.vectorOp?, IntOp.ofOpcode? op with
        | true, some _, _ =>
          let (vop, l) ← lanewise op type
          p.checkVector vop l
          let (_, rhs) ← walkPair p depth children
          p.combineVectors vop l depth rhs.index
        | _, vop, iop =>
          match type.isFloating, vop, iop with
          | true, some vop, _ =>
            let (_, rhs) ← walkPair p depth children
            Lowering.instr (.floatOp (.ofVector vop) (type == .double) depth rhs.index)
          | _, _, some iop =>
            let (_, rhs) ← walkPair p depth children
            Lowering.instr (.intOp iop type.isWide depth rhs.index)
          | _, _, none => unsupported op type .notAValue
      pure dst

/-- Evaluates the first of some trees. -/
def walkFirst (p : Plan) (depth : Nat) : List Node → Tracked Reg
  | a :: _ => walk p depth a
  | [] => Lowering.fail (.unsupported "node" .noType .missingOperand)

/-- Evaluates the first two of some trees.  The register of the first one is pushed while the second
one is evaluated. -/
def walkPair (p : Plan) (depth : Nat) : List Node → Tracked (Reg × Reg)
  | a :: b :: _ => do
    let lhs ← walk p depth a
    .update (.push lhs)
    let rhs ← walk p (depth + 1) b
    .update .pop
    pure (lhs, rhs)
  | _ => Lowering.fail (.unsupported "node" .noType .missingOperand)

/-- Evaluates the arguments of a call from index `j` on and puts them into their slots. -/
def walkArguments (p : Plan) (level depth : Nat) : (j : Nat) → List Node → Tracked Unit
  | _, [] => pure ()
  | j, n :: ns => do
    let value ← walk p depth n
    Lowering.instr (.store (.slot n.type) value .frame (frameOffset (p.frame.staging level j)))
    walkArguments p level depth (j + 1) ns

end

/-- Lowers a tree of a block. -/
def walkTreetop (p : Plan) (last : Bool) (n : Node) : Tracked Unit := do
  match n.op with
  | .storeIndirect =>
    let (address, value) ← p.walkPair 0 n.children
    Lowering.instr (.store (.ofType n.type) value (.reg address.index) n.offset)
  | .ret =>
    if !n.children.isEmpty then
      let value ← p.walkFirst 0 n.children
      Lowering.instr (.moveResult value)
    if !last then Lowering.op (.transfer (.jump p.epilogue))
  | .goto =>
    let label ← p.target n.op n.type n.imm
    Lowering.op (.transfer (.jump label))
  | .ifcmp c =>
    let (lhs, rhs) ← p.walkPair 0 n.children
    Lowering.instr (.compare n.type.isWide lhs.index rhs.index)
    let label ← p.target n.op n.type n.imm
    Lowering.op (.transfer (.branchIf c label))
  | .call =>
    let c ← p.beginCall n.type n.imm (n.children.map Node.type) 0
    let before ← .ledger
    .update .enter
    p.walkArguments before.level 0 0 n.children
    .update .leave
    .update (.call c.result)
    let after ← .ledger
    let _ ← p.endCall after.held before.level c
  | _ =>
    let _ ← p.walk 0 n

/-- Lowers the trees of a block, which is the `final` one or not. -/
def walkTrees (p : Plan) (final : Bool) : List Node → Tracked Unit
  | [] => pure ()
  | n :: ns => do
    p.walkTreetop (final && ns.isEmpty) n
    .update .finish
    p.walkTrees final ns

/-- Lowers the blocks from an index on. -/
def walkBlocksFrom (p : Plan) : (index : Nat) → List Block → Tracked Unit
  | _, [] => pure ()
  | index, b :: bs => do
    Lowering.op (.bind index)
    p.walkTrees bs.isEmpty b.trees
    p.walkBlocksFrom (index + 1) bs

end Plan

/-- Lowers a method whose flow of control has been checked. -/
def Method.walk (m : Method) (cpu : Cpu) (fallback : VectorFallback) : Tracked Unit := do
  match cpu.isa.convention.assignAll m.params with
  | none => Lowering.fail (.unsupported "method" m.returnType (.parameters m.params))
  | some arguments =>
    let p : Plan := ⟨cpu, fallback, Frame.plan m cpu.isa.deepest, m.blocks.length⟩
    Lowering.instr (.prologue (UInt32.ofNat p.frame.size))
    (arguments.zip m.params).zipIdx.forM fun ((argument, type), i) =>
      Lowering.instr (.spillArg argument (.slot type) (frameOffset (p.frame.param i)))
    p.walkBlocksFrom 0 m.blocks
    Lowering.op (.bind p.epilogue)
    Lowering.instr .epilogue

/-! ## What is held -/

/-- Registers with ascending depths, all of them below a depth. -/
structure Ascending (held : List Reg) (depth : Nat) : Prop where
  ascends : (held.map Reg.index).Pairwise (· < ·)
  below : ∀ r ∈ held, r.index < depth

namespace Ascending

variable {held : List Reg} {depth : Nat} {r : Reg}

lemma nil : Ascending [] depth := ⟨.nil, by simp⟩

/-- The register at the depth is waited for, one deeper. -/
lemma snoc (h : Ascending held depth) (hr : r.index = depth) :
    Ascending (held ++ [r]) (depth + 1) where
  ascends := by
    rw [List.map_append, List.pairwise_append]
    exact ⟨h.ascends, List.pairwise_singleton _ _, by simpa [hr] using h.below⟩
  below := by
    rw [List.forall_mem_append]
    exact ⟨fun r' hr' => Nat.lt_succ_of_lt (h.below r' hr'), by simp [hr]⟩

/-- The register at the depth is not held. -/
lemma notMem (h : Ascending held depth) (hr : r.index = depth) : r ∉ held :=
  fun hmem => Nat.lt_irrefl depth (hr ▸ h.below r hmem)

end Ascending

/-- What was held had ascending depths below the one that was evaluated at, no call restored the
register of its result, and nothing was held behind a tree of a block. -/
structure Ledger.Sound (s : Ledger) : Prop where
  visits : ∀ v ∈ s.visits, Ascending v.1 v.2
  calls : ∀ c ∈ s.calls, ∀ r, c.2 = some r → r ∉ c.1
  ends : ∀ e ∈ s.ends, e = ([], 0)

/-- The same is held again, within the same calls. -/
structure Ledger.Kept (s s' : Ledger) : Prop where
  held : s'.held = s.held
  level : s'.level = s.level
  ends : s'.ends = s.ends

namespace Ledger

variable {s s' s'' : Ledger} {depth : Nat} {r : Reg} {result : Option Reg}

lemma Kept.refl (s : Ledger) : Kept s s := ⟨rfl, rfl, rfl⟩

lemma Kept.trans (h : Kept s s') (h' : Kept s' s'') : Kept s s'' :=
  ⟨h'.held.trans h.held, h'.level.trans h.level, h'.ends.trans h.ends⟩

lemma sound_empty : empty.Sound := ⟨by simp [empty], by simp [empty], by simp [empty]⟩

lemma Sound.push (h : s.Sound) : (s.push r).Sound := ⟨h.visits, h.calls, h.ends⟩

lemma Sound.pop (h : s.Sound) : s.pop.Sound := ⟨h.visits, h.calls, h.ends⟩

lemma Sound.enter (h : s.Sound) : s.enter.Sound := ⟨h.visits, h.calls, h.ends⟩

lemma Sound.leave (h : s.Sound) : s.leave.Sound := ⟨h.visits, h.calls, h.ends⟩

lemma Sound.visit (h : s.Sound) (hheld : Ascending s.held depth) : (s.visit depth).Sound :=
  ⟨List.forall_mem_cons.mpr ⟨hheld, h.visits⟩, h.calls, h.ends⟩

lemma Sound.call (h : s.Sound) (hresult : ∀ r, result = some r → r ∉ s.held) :
    (s.call result).Sound :=
  ⟨h.visits, List.forall_mem_cons.mpr ⟨hresult, h.calls⟩, h.ends⟩

lemma Sound.finish (h : s.Sound) (hheld : s.held = []) (hlevel : s.level = 0) : s.finish.Sound :=
  ⟨h.visits, h.calls, List.forall_mem_cons.mpr ⟨by rw [hheld, hlevel], h.ends⟩⟩

end Ledger

/-! ## The same operations -/

/-- From a ledger on, tracked lowering is the given one, and leaves a sound ledger; if it ends
without an error, the ledger and the result satisfy `Q`. -/
structure Tracked.Follows {α : Type} (x : Tracked α) (s : Ledger) (y : Lowering α)
    (Q : α → Ledger → Prop) : Prop where
  eq : (x s).1 = y
  sound : (x s).2.Sound
  post : ∀ a, y.result = .ok a → Q a (x s).2

namespace Tracked

variable {α β : Type} {s : Ledger} {Q : α → Ledger → Prop} {R : β → Ledger → Prop}

lemma follows_pure {a : α} (hs : s.Sound) (h : Q a s) :
    Follows (Pure.pure a) s (Pure.pure a) Q :=
  ⟨rfl, hs, fun _ ha => Except.ok.inj ha ▸ h⟩

lemma follows_lift (y : Lowering α) (hs : s.Sound) (h : ∀ a, y.result = .ok a → Q a s) :
    Follows (liftM y) s y Q := ⟨rfl, hs, h⟩

lemma Follows.bind {x : Tracked α} {f : α → Tracked β} {y : Lowering α} {g : α → Lowering β}
    (hx : Follows x s y Q)
    (hf : ∀ a s', y.result = .ok a → s'.Sound → Q a s' → Follows (f a) s' (g a) R) :
    Follows (x >>= f) s (y >>= g) R := by
  obtain ⟨rfl, hsound, hpost⟩ := hx
  change Follows (Tracked.bind x f) s (Lowering.bind (x s).1 g) R
  cases hresult : (x s).1.result with
  | error e =>
    have hx : Tracked.bind x f s =
        (⟨(x s).1.ops, (x s).1.scalarized, .error e⟩, (x s).2) := by
      unfold Tracked.bind
      rw [hresult]
    refine ⟨?_, hx ▸ hsound, fun b hb => ?_⟩
    · unfold Lowering.bind
      rw [hx, hresult]
    · rw [Lowering.bind, hresult] at hb
      cases hb
  | ok a =>
    have hnext := hf a (x s).2 hresult hsound (hpost a hresult)
    have hx : Tracked.bind x f s = (⟨(x s).1.ops ++ (f a (x s).2).1.ops,
        (x s).1.scalarized + (f a (x s).2).1.scalarized, (f a (x s).2).1.result⟩,
          (f a (x s).2).2) := by
      unfold Tracked.bind
      rw [hresult]
    refine ⟨?_, hx ▸ hnext.sound, fun b hb => ?_⟩
    · unfold Lowering.bind
      rw [hx, hresult, hnext.eq]
    · rw [Lowering.bind, hresult] at hb
      rw [hx]
      exact hnext.post b hb

lemma Follows.weaken {x : Tracked α} {y : Lowering α} {Q' : α → Ledger → Prop}
    (h : Follows x s y Q) (hpost : ∀ a s', Q a s' → Q' a s') : Follows x s y Q' :=
  ⟨h.eq, h.sound, fun a ha => hpost a _ (h.post a ha)⟩

/-- Lowering that does not look at the ledger, and then more. -/
lemma follows_lift_bind {y : Lowering α} {f : α → Tracked β} {g : α → Lowering β} (hs : s.Sound)
    (hf : ∀ a, y.result = .ok a → Follows (f a) s (g a) R) :
    Follows (liftM y >>= f) s (y >>= g) R := by
  refine (follows_lift y hs (Q := fun _ s' => s' = s) fun _ _ => rfl).bind fun a s' ha _ hs' => ?_
  obtain rfl := hs'
  exact hf a ha

lemma follows_update_bind {change : Ledger → Ledger} {f : Unit → Tracked β} {y : Lowering β}
    (h : Follows (f ()) (change s) y R) : Follows (update change >>= f) s y R := by
  obtain ⟨rfl, hsound, hpost⟩ := h
  refine ⟨?_, hsound, hpost⟩
  change (⟨[] ++ _, 0 + _, _⟩ : Lowering β) = _
  rw [List.nil_append, Nat.zero_add]
  rfl

lemma follows_ledger_bind {f : Ledger → Tracked β} {y : Lowering β} (h : Follows (f s) s y R) :
    Follows (ledger >>= f) s y R := by
  obtain ⟨rfl, hsound, hpost⟩ := h
  refine ⟨?_, hsound, hpost⟩
  change (⟨[] ++ _, 0 + _, _⟩ : Lowering β) = _
  rw [List.nil_append, Nat.zero_add]
  rfl

/-- Lowering for the members of a list one after the other, without a look at the ledger. -/
lemma follows_forM {γ : Type} {l : List γ} {g : γ → Lowering Unit} (hs : s.Sound) :
    Follows (l.forM fun a => liftM (g a)) s (l.forM g) fun _ s' => s' = s := by
  induction l with
  | nil => exact follows_pure hs rfl
  | cons a l ih => exact follows_lift_bind hs fun _ _ => ih

end Tracked

namespace Plan

open Tracked Ledger

variable {p : Plan} {held : List Reg} {level depth : Nat} {n : Node} {r : Reg}

lemma index_of_eval (h : (p.eval held level depth n).result = .ok r) : r.index = depth := by
  cases n
  rw [(evaluated_of_eval ⟨rfl, h⟩).1, Machine.index_slotOf]

/-- A call whose arguments can be walked through, and then more. -/
lemma follows_call {β : Type} {s : Ledger} (type : DataType) (imm : Immediate)
    {children : List Node} {f : Option Reg → Tracked β} {g : Option Reg → Lowering β}
    {R : β → Ledger → Prop} (hs : s.Sound) (hheld : Ascending s.held depth)
    (harguments : Follows (p.walkArguments s.level depth 0 children) s.enter
      (p.evalArguments s.held s.level depth 0 children) fun _ s' => s.enter.Kept s')
    (hrest : ∀ r s', s'.Sound → s.Kept s' → Follows (f r) s' (g r) R) :
    Follows (do
        let c ← p.beginCall type imm (children.map Node.type) depth
        let before ← .ledger
        .update .enter
        p.walkArguments before.level depth 0 children
        .update .leave
        .update (.call c.result)
        let after ← .ledger
        let r ← p.endCall after.held before.level c
        f r) s (do
        let c ← p.beginCall type imm (children.map Node.type) depth
        p.evalArguments s.held s.level depth 0 children
        let r ← p.endCall s.held s.level c
        g r) R := by
  refine follows_lift_bind hs fun c hc => follows_ledger_bind (follows_update_bind ?_)
  refine harguments.bind fun _ s' _ hs' hkept => follows_update_bind (follows_update_bind ?_)
  have hresult (r : Reg) (hr : c.result = some r) : r ∉ s'.leave.held := by
    obtain ⟨-, _, _, hbegun, -⟩ := begun_of_beginCall ⟨rfl, hc⟩
    have hindex : r.index = depth := by
      rw [hbegun.result_eq] at hr
      split at hr
      · cases hr
      · rw [← Option.some.inj hr, Machine.index_slotOf]
    exact (hkept.held ▸ hheld).notMem hindex
  have hend : s.Kept (s'.leave.call c.result) :=
    ⟨hkept.held, congrArg (· - 1) hkept.level, hkept.ends⟩
  refine follows_ledger_bind ?_
  rw [hend.held]
  have hsound := hs'.leave.call hresult
  exact follows_lift_bind hsound fun r _ => hrest r _ hsound hend

mutual

/-- Walking through a tree with a ledger is evaluating it, and keeps what is held. -/
lemma follows_walk : ∀ {s : Ledger} {depth : Nat} (n : Node), s.Sound → Ascending s.held depth →
    Follows (p.walk depth n) s (p.eval s.held s.level depth n) fun _ s' => s.Kept s'
  | s, depth, .node op type imm children, hs, hheld => by
    rw [walk, eval]
    have hback (s' : Ledger) (hkept : (s.visit depth).Kept s') : s.Kept s' :=
      ⟨hkept.held, hkept.level, hkept.ends⟩
    refine follows_update_bind (Follows.weaken (Q := fun _ s' => (s.visit depth).Kept s') ?_
      fun _ => hback)
    have hvisit : (s.visit depth).Sound := hs.visit hheld
    by_cases hcall : op = .call
    · rw [if_pos hcall, if_pos hcall]
      refine follows_call type imm hvisit hheld
        (follows_walkArguments 0 children hvisit.enter hheld rfl) fun r s' hs' hkept => ?_
      cases r with
      | none => exact follows_lift _ hs' fun _ _ => hkept
      | some r => exact follows_pure hs' hkept
    · rw [if_neg hcall, if_neg hcall]
      refine follows_lift_bind hvisit fun dst _ => ?_
      have hfirst := follows_walkFirst children hvisit hheld
      have hpair := follows_walkPair children hvisit hheld
      -- Behind the operands nothing looks at the ledger.
      have hown {s' : Ledger} (own : Lowering Unit) (hs' : s'.Sound)
          (hkept : (s.visit depth).Kept s') :
          Follows (do own; Pure.pure dst) s' (do own; Pure.pure dst)
            fun _ s' => (s.visit depth).Kept s' :=
        follows_lift_bind hs' fun _ _ => follows_pure hs' hkept
      cases op with
      | load => cases imm <;> exact hown _ hvisit (.refl _)
      | const => exact hown _ hvisit (.refl _)
      | loadIndirect | neg => exact hfirst.bind fun _ _ _ hs' hkept => hown _ hs' hkept
      | rol =>
        exact follows_lift_bind hvisit fun _ _ => hpair.bind fun _ _ _ hs' hkept => hown _ hs' hkept
      | sqrt =>
        exact follows_lift_bind hvisit fun _ _ =>
          hfirst.bind fun _ _ _ hs' hkept => hown _ hs' hkept
      | call => exact (hcall rfl).elim
      | _ =>
        generalize type.isVector = vector, type.isFloating = floating
        cases vector <;> cases floating <;> first
          | exact hown _ hvisit (.refl _)
          | exact hpair.bind fun _ _ _ hs' hkept => hown _ hs' hkept
          | exact follows_lift_bind hvisit fun _ _ => follows_lift_bind hvisit fun _ _ =>
              hpair.bind fun _ _ _ hs' hkept => hown _ hs' hkept

lemma follows_walkFirst : ∀ {s : Ledger} {depth : Nat} (ns : List Node), s.Sound →
    Ascending s.held depth →
      Follows (p.walkFirst depth ns) s (p.evalFirst s.held s.level depth ns) fun _ s' => s.Kept s'
  | s, _, [], hs, _ => by
    rw [walkFirst, evalFirst]
    exact follows_lift _ hs fun _ _ => .refl s
  | s, _, a :: _, hs, hheld => by
    rw [walkFirst, evalFirst]
    exact follows_walk a hs hheld

lemma follows_walkPair : ∀ {s : Ledger} {depth : Nat} (ns : List Node), s.Sound →
    Ascending s.held depth →
      Follows (p.walkPair depth ns) s (p.evalPair s.held s.level depth ns) fun _ s' => s.Kept s'
  | s, _, [], hs, _ => by
    rw [walkPair, evalPair]
    · exact follows_lift _ hs fun _ _ => .refl s
    · nofun
    · nofun
  | s, _, [_], hs, _ => by
    rw [walkPair, evalPair]
    · exact follows_lift _ hs fun _ _ => .refl s
    · nofun
    · nofun
  | s, depth, a :: b :: _, hs, hheld => by
    rw [walkPair, evalPair]
    -- The register of the first operand is at this depth; the second one is evaluated one deeper.
    refine (follows_walk a hs hheld).bind fun lhs s₁ hlhs hs₁ hkept => follows_update_bind ?_
    have hpush : (s₁.push lhs).held = s.held ++ [lhs] := by rw [push, hkept.held]
    have hlevel : (s₁.push lhs).level = s.level := hkept.level
    have hright := follows_walk b (hs₁.push (r := lhs)) (hpush ▸ hheld.snoc (index_of_eval hlhs))
    rw [hpush, hlevel] at hright
    refine hright.bind fun rhs s₂ _ hs₂ hkept₂ => ?_
    refine follows_update_bind (follows_pure hs₂.pop ⟨?_, ?_, hkept₂.ends.trans hkept.ends⟩)
    · rw [pop, hkept₂.held, hpush, List.dropLast_concat]
    · exact hkept₂.level.trans hlevel

lemma follows_walkArguments : ∀ {s : Ledger} {level depth : Nat} (j : Nat) (ns : List Node),
    s.Sound → Ascending s.held depth → s.level = level + 1 →
      Follows (p.walkArguments level depth j ns) s (p.evalArguments s.held level depth j ns)
        fun _ s' => s.Kept s'
  | s, _, _, _, [], hs, _, _ => by
    rw [walkArguments, evalArguments]
    exact follows_pure hs (.refl s)
  | s, level, depth, j, n :: ns, hs, hheld, hlevel => by
    rw [walkArguments, evalArguments]
    have hvalue := follows_walk n hs hheld
    rw [hlevel] at hvalue
    refine hvalue.bind fun value s₁ _ hs₁ hkept => follows_lift_bind hs₁ fun _ _ => ?_
    have hrest := follows_walkArguments (j + 1) ns hs₁ (hkept.held ▸ hheld)
      (hkept.level.trans hlevel)
    rw [hkept.held] at hrest
    exact hrest.weaken fun _ _ h => hkept.trans h

end

/-- Lowering a tree of a block, in front of which nothing is held. -/
lemma follows_walkTreetop {s : Ledger} {last : Bool} (hs : s.Sound) (hheld : s.held = [])
    (hlevel : s.level = 0) :
    Follows (p.walkTreetop last n) s (p.treetop last n) fun _ s' => s.Kept s' := by
  obtain ⟨op, type, imm, children⟩ := n
  have hascending : Ascending s.held 0 := hheld ▸ .nil
  have hfirst := follows_walkFirst (p := p) children hs hascending
  have hpair := follows_walkPair (p := p) children hs hascending
  have htree := follows_walk (p := p) (.node op type imm children) hs hascending
  rw [hheld, hlevel] at hfirst hpair htree
  have hown {s' : Ledger} (own : Lowering Unit) (hs' : s'.Sound) (hkept : s.Kept s') :
      Follows (liftM own) s' own fun _ s' => s.Kept s' := follows_lift own hs' fun _ _ => hkept
  cases op with
  | storeIndirect => exact hpair.bind fun _ _ _ hs' hkept => hown _ hs' hkept
  | ret =>
    have hjump {s' : Ledger} (hs' : s'.Sound) (hkept : s.Kept s') :
        Follows (if !last then liftM (Lowering.op (.transfer (.jump p.epilogue)))
          else Pure.pure PUnit.unit) s' (if !last then Lowering.op (.transfer (.jump p.epilogue))
            else Pure.pure PUnit.unit) fun _ s' => s.Kept s' := by
      cases last with
      | false => exact hown _ hs' hkept
      | true => exact follows_pure hs' hkept
    cases children with
    | nil => exact hjump hs (.refl s)
    | cons =>
      exact hfirst.bind fun _ _ _ hs' hkept => follows_lift_bind hs' fun _ _ => hjump hs' hkept
  | goto => exact follows_lift_bind hs fun _ _ => hown _ hs (.refl s)
  | ifcmp c => exact hpair.bind fun _ _ _ hs' hkept => follows_lift_bind hs' fun _ _ =>
      follows_lift_bind hs' fun _ _ => hown _ hs' hkept
  | call =>
    have harguments := follows_walkArguments (p := p) 0 children hs.enter hascending rfl
    have hcall := follows_call (p := p) type imm hs hascending harguments
      (R := fun _ s' => s.Kept s') fun _ _ hs' hkept => follows_pure (a := ()) hs' hkept
    rwa [hheld, hlevel] at hcall
  | _ => exact htree.bind fun _ _ _ hs' hkept => follows_pure hs' hkept

/-- Lowering the trees of a block, behind each of which nothing is held. -/
lemma follows_walkTrees {final : Bool} {ns : List Node} {s : Ledger} (hs : s.Sound)
    (hheld : s.held = []) (hlevel : s.level = 0) :
    Follows (p.walkTrees final ns) s (p.trees final ns) fun _ s' =>
      s'.held = [] ∧ s'.level = 0 ∧ s'.ends.length = s.ends.length + ns.length := by
  induction ns generalizing s with
  | nil => exact follows_pure hs ⟨hheld, hlevel, rfl⟩
  | cons n ns ih =>
    rw [walkTrees, trees]
    refine (follows_walkTreetop hs hheld hlevel).bind fun _ s₁ _ hs₁ hkept => ?_
    have hheld₁ : s₁.held = [] := hkept.held.trans hheld
    have hlevel₁ : s₁.level = 0 := hkept.level.trans hlevel
    refine follows_update_bind ((ih (hs₁.finish hheld₁ hlevel₁) hheld₁ hlevel₁).weaken ?_)
    rintro _ s' ⟨hheld', hlevel', hends⟩
    refine ⟨hheld', hlevel', hends.trans ?_⟩
    rw [finish, List.length_cons, List.length_cons, hkept.ends]
    omega

lemma follows_walkBlocksFrom {index : Nat} {bs : List Block} {s : Ledger} (hs : s.Sound)
    (hheld : s.held = []) (hlevel : s.level = 0) :
    Follows (p.walkBlocksFrom index bs) s (p.blocksFrom index bs) fun _ s' =>
      s'.held = [] ∧ s'.level = 0 ∧
        s'.ends.length = s.ends.length + (bs.flatMap Block.trees).length := by
  induction bs generalizing index s with
  | nil => exact follows_pure hs ⟨hheld, hlevel, rfl⟩
  | cons b bs ih =>
    rw [walkBlocksFrom, blocksFrom]
    refine follows_lift_bind hs fun _ _ => (follows_walkTrees hs hheld hlevel).bind ?_
    rintro _ s₁ - hs₁ ⟨hheld₁, hlevel₁, hends₁⟩
    refine (ih hs₁ hheld₁ hlevel₁).weaken ?_
    rintro _ s' ⟨hheld', hlevel', hends⟩
    refine ⟨hheld', hlevel', ?_⟩
    rw [hends, hends₁, List.flatMap_cons, List.length_append, Nat.add_assoc]

end Plan

/-- **Lowering with a ledger is lowering.**  The same operations come out, and the same error if
there is one.  At every time the held registers have ascending depths below the one that is
evaluated at, no call restores the register of its result, and behind each tree of a block nothing
is held. -/
theorem Method.follows_walk (m : Method) (cpu : Cpu) (fallback : VectorFallback) :
    (m.walk cpu fallback).Follows .empty (m.lower cpu fallback) fun _ s =>
      s.held = [] ∧ s.level = 0 ∧ s.ends = List.replicate m.trees.length ([], 0) := by
  have hs := Ledger.sound_empty
  unfold walk lower
  cases cpu.isa.convention.assignAll m.params with
  | none => exact Tracked.follows_lift _ hs fun a ha => nomatch ha
  | some arguments =>
    refine Tracked.follows_lift_bind hs fun _ _ => (Tracked.follows_forM hs).bind ?_
    rintro _ s - - rfl
    refine (Plan.follows_walkBlocksFrom hs rfl rfl).bind ?_
    rintro _ s - hs' ⟨hheld, hlevel, hends⟩
    refine Tracked.follows_lift_bind hs' fun _ _ => Tracked.follows_lift _ hs' fun _ _ =>
      ⟨hheld, hlevel, List.eq_replicate_iff.mpr ⟨?_, hs'.ends⟩⟩
    rw [hends, Method.trees]
    exact Nat.zero_add _

end TreeCode
