import TreeCode.Method

/-!
# The frame of a method

The frame lies upward from the stack pointer.  It begins with a slot of eight bytes for each
parameter.  Then come slots of sixteen bytes for values that are kept across a call, rows of
eight-byte slots in which the arguments of a call are gathered, one row for each level of calls
within calls, and two buffers for vectors that are worked on lane by lane.
-/

namespace TreeCode

/-- The next multiple of sixteen. -/
def align16 (n : Nat) : Nat := (n + 15) / 16 * 16

/-- Size of the slot of a parameter or argument. -/
def slotBytes : Nat := 8

/-- Size of the slot of a value kept across a call. -/
def spillBytes : Nat := 16

/-- The widest argument list and the deepest nesting of calls in some trees. -/
structure CallShape where
  width : Nat
  levels : Nat
  deriving DecidableEq, Repr

namespace CallShape

/-- The shape of trees without calls. -/
def none : CallShape := ⟨0, 0⟩

/-- The shape of two groups of trees. -/
def max (a b : CallShape) : CallShape := ⟨Nat.max a.width b.width, Nat.max a.levels b.levels⟩

/-- The shape of a call around trees. -/
def around (arguments : Nat) (inner : CallShape) : CallShape :=
  ⟨Nat.max inner.width arguments, inner.levels + 1⟩

end CallShape

mutual

/-- The shape of a tree. -/
def Node.callShape : Node → CallShape
  | .node op _ _ children =>
    let inner := Node.callShapes children
    if op = .call then .around children.length inner else inner

/-- The shape of a list of trees. -/
def Node.callShapes : List Node → CallShape
  | [] => .none
  | n :: ns => .max (Node.callShape n) (Node.callShapes ns)

end

/-- Whether a tree has a node of a vector type. -/
def Node.hasVector (n : Node) : Bool := n.any fun _ type => type.isVector

/-- Where the parts of a frame begin. -/
structure Frame where
  spillBase : Nat
  stagingBase : Nat
  stagingRow : Nat
  scratchBase : Nat
  size : Nat
  deriving DecidableEq, Repr

namespace Frame

/-- Lays out the frame of a method in which at most `spillSlots` values are kept across a call. -/
def plan (m : Method) (spillSlots : Nat) : Frame :=
  let shape := Node.callShapes m.trees
  let spillBase := align16 (m.params.length * slotBytes)
  let stagingBase := spillBase + (if 0 < shape.levels then spillSlots * spillBytes else 0)
  let stagingRow := shape.width * slotBytes
  let scratchBase := align16 (stagingBase + stagingRow * shape.levels)
  let scratch := if m.trees.any Node.hasVector then 2 * vectorBytes else 0
  ⟨spillBase, stagingBase, stagingRow, scratchBase, align16 (scratchBase + scratch)⟩

/-- Offset of the slot of a parameter. -/
def param (_ : Frame) (index : Nat) : Nat := index * slotBytes

/-- Offset of a slot for a value kept across a call. -/
def spill (f : Frame) (index : Nat) : Nat := f.spillBase + index * spillBytes

/-- Offset of the slot of an argument of a call at a level. -/
def staging (f : Frame) (level arg : Nat) : Nat :=
  f.stagingBase + level * f.stagingRow + arg * slotBytes

/-- Offset of one of the two vector buffers. -/
def scratch (f : Frame) (index : Nat) : Nat := f.scratchBase + index * vectorBytes

end Frame

end TreeCode
