import TreeCode.Method
import TreeCode.Number.Shortest
import TreeCode.Text.Hex

/-!
# Methods as text

`Method.render` writes a method in the syntax that `Method.parse` reads, one tree a line.
-/

namespace TreeCode

/-- A name between double quotes. -/
def quotedName (name : String) : String := "\"" ++ name ++ "\""

/-- The operand of a node that is no tree, with the space before it. -/
def Immediate.render (blocks : List Block) (op : Opcode) : Immediate → String
  | .none | .offset _ => ""
  | .parm index => " parm=" ++ toString index.toNat
  | .int v => if op = .const then " " ++ toString v.toInt else ""
  | .float bits =>
    if op = .const then
      " " ++ Number.render Number.constantStyle Number.binary64 bits.toNat
    else ""
  | .target index =>
    let label := (blocks[index]?.map fun block => block.label index).getD ("#" ++ toString index)
    " target=" ++ quotedName label
  | .address a => " address=" ++ Text.hex a.toNat

/-- The type of a vector access, which its opcode does not tell. -/
def renderAccessType (op : Opcode) (type : DataType) : String :=
  if type.isVector && (op == .loadIndirect || op == .storeIndirect) then " type=" ++ type.name
  else ""

/-- The byte offset of an indirect access. -/
def renderOffset : Immediate → String
  | .offset o => " offset=" ++ toString o.toInt
  | _ => ""

/-- A list of types in brackets. -/
def renderTypes (types : List DataType) : String :=
  "[" ++ ",".intercalate (types.map DataType.name) ++ "]"

/-- The argument types of a call that has arguments. -/
def renderArguments (op : Opcode) (children : List Node) : String :=
  if op = .call && !children.isEmpty then " args=" ++ renderTypes (children.map Node.type) else ""

mutual

/-- A tree as text; `blocks` tells the names of branch targets. -/
def Node.render (blocks : List Block) : Node → String
  | .node op type imm children =>
    "(" ++ op.mnemonic type ++ imm.render blocks op ++ renderAccessType op type ++ renderOffset imm
      ++ renderArguments op children ++ Node.renderAll blocks children ++ ")"

/-- Trees as text, each with a space before it. -/
def Node.renderAll (blocks : List Block) : List Node → String
  | [] => ""
  | n :: ns => " " ++ Node.render blocks n ++ Node.renderAll blocks ns

end

/-- The field with the name of a method or block, with the space before it. -/
def renderName : Option String → String
  | some name => " name=" ++ quotedName name
  | none => ""

/-- A block as text, one tree a line. -/
def Block.render (blocks : List Block) (b : Block) : String :=
  "\n  (block" ++ renderName b.name
    ++ String.join (b.trees.map fun t => "\n    " ++ t.render blocks) ++ ")"

/-- A method as text. -/
def Method.render (m : Method) : String :=
  "(method" ++ renderName m.name ++ " return=" ++ m.returnType.name ++ " args="
    ++ renderTypes m.params ++ String.join (m.blocks.map (Block.render m.blocks)) ++ ")"

end TreeCode
