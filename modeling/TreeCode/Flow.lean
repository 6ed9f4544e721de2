import TreeCode.Method

/-!
# Control flow

Before code is made, the flow of control between the blocks of a method is checked.  A block ends
with the first return or goto in it, and nothing may follow that there; a block without one falls
through into the next block, which the last block must not do; and every block must be reachable
from the first.
-/

namespace TreeCode

/-- What is wrong with the flow of control of a method. -/
inductive FlowError where
  /-- The tree at an index stands behind a return or goto. -/
  | deadCode (label : String) (index : Nat)
  | unreachable (label : String)
  | fallsOffEnd (label : String)
  deriving DecidableEq, Repr

/-- The wording of a flow error. -/
def FlowError.message : FlowError → String
  | deadCode label index =>
    "dead code after terminator in block " ++ label ++ " (tree " ++ toString index ++ ")"
  | unreachable label => "block " ++ label ++ " is unreachable from the entry block"
  | fallsOffEnd label => "control falls off the end of the method after block " ++ label

namespace Node

/-- The block that a branch or jump goes to. -/
def target? (n : Node) : Option Nat :=
  match n.op, n.imm with
  | .goto, .target t | .ifcmp _, .target t => some t
  | _, _ => none

/-- Whether control never goes on behind the tree. -/
def endsBlock (n : Node) : Bool :=
  match n.op with
  | .ret => true
  | .goto => n.target?.isSome
  | _ => false

end Node

namespace Block

/-- Index of the first tree behind which control does not go on. -/
def terminator? (b : Block) : Option Nat := b.trees.findIdx? Node.endsBlock

/-- The blocks that branches and jumps of the block go to, in their order. -/
def targets (b : Block) : List Nat := b.trees.filterMap Node.target?

end Block

namespace Method

/-- The blocks that control can enter from the block at an index. -/
def successors (m : Method) (index : Nat) : List Nat :=
  match m.blocks[index]? with
  | none => []
  | some b => b.targets ++ (if b.terminator?.isSome then [] else [index + 1])

/-- The first defect inside the blocks from an index on. -/
def blockDefect? (count : Nat) : (index : Nat) → List Block → Option FlowError
  | _, [] => none
  | index, b :: bs =>
    match b.terminator? with
    | some t =>
      if t + 1 < b.trees.length then some (.deadCode (b.label index) (t + 1))
      else blockDefect? count (index + 1) bs
    | none =>
      if index + 1 < count then blockDefect? count (index + 1) bs
      else some (.fallsOffEnd (b.label index))

/-- A search for the blocks that control can reach: those that are still to be visited, the next one
first, and those that have been. -/
structure Search where
  work : List Nat
  reached : List Nat
  deriving Repr

/-- A turn of the search.  A block may stand in the work more than once; only the first visit of it
adds its successors, and only those that have not been visited. -/
def visit (m : Method) (s : Search) : Search :=
  match s.work with
  | [] => s
  | b :: work =>
    if s.reached.contains b then { s with work }
    else
      let reached := b :: s.reached
      ⟨((m.successors b).filter fun t => !reached.contains t).reverse ++ work, reached⟩

/-- The search from the first block on after a number of turns. -/
def searched (m : Method) : Nat → Search
  | 0 => ⟨[0], []⟩
  | turns + 1 => m.visit (m.searched turns)

/-- A number of turns that is enough for the search: every turn takes one block off the work, and
the successors of a block are added at most once. -/
def turns (m : Method) : Nat :=
  1 + ((List.range m.blocks.length).flatMap m.successors).length

/-- The blocks that control can reach from the first one. -/
def reachable (m : Method) : List Nat := (m.searched m.turns).reached

/-- The first block that control cannot reach. -/
def unreachable? (m : Method) : Option FlowError :=
  let reached := m.reachable
  (m.blocks.zipIdx.find? fun (_, index) => !reached.contains index).map fun (b, index) =>
    .unreachable (b.label index)

/-- Checks the flow of control. -/
def checkFlow (m : Method) : Except FlowError Unit :=
  match blockDefect? m.blocks.length 0 m.blocks with
  | some e => .error e
  | none =>
    match m.unreachable? with
    | some e => .error e
    | none => .ok ()

end Method

end TreeCode
