import TreeCode.Evaluation.Tree

/-!
# The meaning of methods

The trees of a block are evaluated one after the other.  A return ends the method, a branch goes to
the first tree of another block, and behind the last tree of a block the next block begins.
-/

namespace TreeCode

/-- A place between the trees of a method: the tree of this index in this block comes next. -/
structure Position where
  block : Nat
  tree : Nat
  deriving DecidableEq, Repr

namespace Position

/-- Behind the next tree. -/
def next (p : Position) : Position := { p with tree := p.tree + 1 }

/-- The beginning of a block. -/
def start (block : Nat) : Position := ⟨block, 0⟩

end Position

/-- What evaluating a tree of a block leads to. -/
inductive Progress where
  | at (p : Position)
  /-- The method has returned. -/
  | returned (result : Option Datum)
  deriving DecidableEq, Repr

/-- Where a branch goes. -/
def Immediate.branch? : Immediate → Option Progress
  | .target t => some (.at (.start t))
  | _ => Option.none

namespace Setting

/-- Evaluates the tree at a place of a block. -/
def treetop (s : Setting) (p : Position) (n : Node) : Evaluation Progress := do
  match n.op with
  | .storeIndirect =>
    let (base, value) ← s.evalPair n.children
    let address ← .ofOption base.address?
    storeTo n.type (n.imm.indirect address) value
    pure (.at p.next)
  | .ret =>
    if n.children.isEmpty then pure (.returned none)
    else
      let value ← s.evalFirst n.children
      pure (.returned (some value))
  | .goto => .ofOption n.imm.branch?
  | .ifcmp c =>
    let (a, b) ← s.evalPair n.children
    let holds ← .ofOption (a.compare? c b)
    if holds then .ofOption n.imm.branch? else pure (.at p.next)
  | .call =>
    let _ ← s.evalCall n.imm n.children
    pure (.at p.next)
  | _ =>
    let _ ← s.eval n
    pure (.at p.next)

/-- Does what comes next in a method: evaluates a tree, or goes on to the next block. -/
def step (s : Setting) (m : Method) (p : Position) : Evaluation Progress := do
  let block ← .ofOption m.blocks[p.block]?
  match block.trees[p.tree]? with
  | some n => s.treetop p n
  | none => pure (.at (.start (p.block + 1)))

/-- Runs a method from a place on for at most so many steps. -/
def run (s : Setting) (m : Method) :
    (steps : Nat) → Position → World → Option (Option Datum × World)
  | 0, _, _ => none
  | steps + 1, p, w =>
    match s.step m p w with
    | none => none
    | some (.at p, w) => run s m steps p w
    | some (.returned result, w) => some (result, w)

end Setting

/-- Runs a method from its beginning. -/
def Method.run (m : Method) (s : Setting) (steps : Nat) (w : World) :
    Option (Option Datum × World) :=
  s.run m steps (.start 0) w

end TreeCode
