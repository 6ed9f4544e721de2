import TreeCode.Opcode

/-!
# Methods

A method is an ordered list of blocks, and a block an ordered list of trees that are evaluated one
after the other.  A tree is a node with its operands as children; next to its opcode and type it
may carry one operand that is no tree, the `Immediate`.
-/

namespace TreeCode

/-- The operand of a node that is not a child tree. -/
inductive Immediate where
  | none
  /-- Index of a parameter. -/
  | parm (index : UInt32)
  /-- Byte offset of an indirect access. -/
  | offset (bytes : Int32)
  | int (value : Int64)
  /-- The bits of a 64-bit floating point number. -/
  | float (bits : UInt64)
  /-- Index of the block a branch goes to. -/
  | target (block : Nat)
  /-- Absolute address of the code a call enters. -/
  | address (value : UInt64)
  deriving DecidableEq, Repr

/-- A tree: an operation on the values of its children. -/
inductive Node where
  | node (op : Opcode) (type : DataType) (imm : Immediate) (children : List Node)
  deriving Repr

namespace Node

/-- What the node does. -/
def op : Node → Opcode
  | node op _ _ _ => op

/-- Type of the result; of the stored value for a store, of the operands for a compare-branch. -/
def type : Node → DataType
  | node _ type _ _ => type

/-- The operand that is no tree. -/
def imm : Node → Immediate
  | node _ _ imm _ => imm

/-- The operands, first one first. -/
def children : Node → List Node
  | node _ _ _ children => children

/-- The name of the node's operation in text. -/
def mnemonic (n : Node) : String := n.op.mnemonic n.type

/-- Byte offset of an indirect access, 0 where the node has none. -/
def offset (n : Node) : Int32 :=
  match n.imm with
  | .offset o => o
  | _ => 0

mutual

/-- Number of nodes of a tree. -/
def size : Node → Nat
  | node _ _ _ children => 1 + sizes children

/-- Number of nodes of a list of trees. -/
def sizes : List Node → Nat
  | [] => 0
  | n :: ns => size n + sizes ns

end

mutual

/-- Whether some node of the tree satisfies `p`. -/
def any (p : Opcode → DataType → Bool) : Node → Bool
  | node op type _ children => p op type || anyOf p children

/-- Whether some node of the trees satisfies `p`. -/
def anyOf (p : Opcode → DataType → Bool) : List Node → Bool
  | [] => false
  | n :: ns => any p n || anyOf p ns

end

end Node

/-- A named or unnamed list of trees. -/
structure Block where
  name : Option String
  trees : List Node
  deriving Repr

/-- The name of the block at an index, or a number sign and the index if it has none. -/
def Block.label (b : Block) (index : Nat) : String :=
  match b.name with
  | some name => name
  | none => "#" ++ toString index

/-- A method: its signature and its blocks, of which the first one is entered. -/
structure Method where
  name : Option String
  returnType : DataType
  params : List DataType
  blocks : List Block
  deriving Repr

namespace Method

/-- Name of a method in symbol tables and statistics. -/
def symbol (m : Method) : String := m.name.getD "method"

/-- All top-level trees, in order. -/
def trees (m : Method) : List Node := m.blocks.flatMap Block.trees

end Method

/-! ## Agreement

Two methods agree if they are equal, except that floating point constants are compared as numbers:
the two zeros are equal, and a NaN is not equal to itself. -/

/-- Whether the bits are those of a NaN. -/
def isNaN64 (bits : UInt64) : Bool := (bits &&& 0x7fffffffffffffff) > 0x7ff0000000000000

/-- Equality of 64-bit floating point numbers given by their bits. -/
def sameNumber (a b : UInt64) : Bool :=
  if isNaN64 a || isNaN64 b then false
  else a == b || (a ||| b) == 0x8000000000000000

/-- Agreement of immediates. -/
def Immediate.agrees : Immediate → Immediate → Bool
  | .float a, .float b => sameNumber a b
  | a, b => a == b

mutual

/-- Agreement of trees. -/
def Node.agrees : Node → Node → Bool
  | .node op type imm children, .node op' type' imm' children' =>
    op == op' && type == type' && imm.agrees imm' && Node.allAgree children children'

/-- Agreement of lists of trees. -/
def Node.allAgree : List Node → List Node → Bool
  | [], [] => true
  | n :: ns, n' :: ns' => Node.agrees n n' && Node.allAgree ns ns'
  | _, _ => false

end

/-- Agreement of blocks. -/
def Block.agrees (a b : Block) : Bool := a.name == b.name && Node.allAgree a.trees b.trees

/-- Agreement of methods. -/
def Method.agrees (a b : Method) : Bool :=
  a.name == b.name && a.returnType == b.returnType && a.params == b.params &&
    a.blocks.length == b.blocks.length &&
    (a.blocks.zip b.blocks).all fun (x, y) => x.agrees y

end TreeCode
