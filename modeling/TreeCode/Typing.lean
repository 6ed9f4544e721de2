import TreeCode.Method
import TreeCode.Source.Reader

/-!
# From expressions to methods

`Method.ofExpr` gives an expression its meaning: it decodes opcodes, checks fields and the number
of operands, resolves block labels and applies the typing rules.  Each family of opcodes has one
rule, a function of the expression's form and its operands, which have been built before.
Anything wrong refuses the whole method.
-/

namespace TreeCode

open Source (Form Field Value Expr)

namespace Source.Value

/-- The name a value is, if it is one. -/
def name? : Value → Option String
  | ident name | text name => some name
  | _ => none

end Source.Value

namespace Source.Form

/-- A defect at the expression itself. -/
def fail {α : Type} (f : Form) (defect : Defect) : Except ParseError α :=
  .error (.malformed f.position defect)

/-- Refuses fields with other keys than the allowed ones, and values without a key. -/
def checkFields (f : Form) (allowed : List String) : Except ParseError Unit :=
  f.fields.forM fun field =>
    match field.key with
    | some key =>
      if allowed.contains key then .ok ()
      else .error (.malformed field.position (.unexpectedField key f.head))
    | none => .error (.malformed field.position (.unexpectedValue f.head))

/-- The name in a field. -/
def name? (f : Form) (key : String) : Except ParseError (Option String) :=
  match f.field? key with
  | none => .ok none
  | some field =>
    match field.value.name? with
    | some name => .ok (some name)
    | none => .error (.malformed field.position (.notAName key))

/-- The integer in a field and the field's place. -/
def int? (f : Form) (key : String) : Except ParseError (Option (Int64 × Nat)) :=
  match f.field? key with
  | none => .ok none
  | some field =>
    match field.value with
    | .int v => .ok (some (v, field.position))
    | _ => .error (.malformed field.position (.notAnInteger key))

/-- The integer in a field that has to be there. -/
def int (f : Form) (key : String) : Except ParseError (Int64 × Nat) := do
  match ← f.int? key with
  | some found => .ok found
  | none => f.fail (.missingField f.head key)

end Source.Form

/-- The type that a value names; `position` is the place of the field it stands in. -/
def DataType.ofValue (position : Nat) (v : Value) : Except ParseError DataType :=
  match v.name? with
  | some name =>
    match DataType.ofName? name with
    | some type => .ok type
    | none => .error (.malformed position (.unknownType name))
  | none => .error (.malformed position .expectedTypeName)

namespace Source.Form

/-- The type in a field. -/
def type? (f : Form) (key : String) : Except ParseError (Option DataType) :=
  match f.field? key with
  | none => .ok none
  | some field => (DataType.ofValue field.position field.value).map some

/-- A mismatch between the expression's opcode and what it is applied to. -/
def mismatch {α : Type} (f : Form) (expected found : Operand) : Except ParseError α :=
  .error (.typeMismatch f.head expected found)

/-- Refuses an operand of another type. -/
def expect (f : Form) (operand : Node) (type : DataType) : Except ParseError Unit :=
  if operand.type = type then .ok () else f.mismatch (.ofType type) (.ofType operand.type)

/-- Refuses any operand. -/
def noOperand (f : Form) (operands : List Node) : Except ParseError Unit :=
  match operands with
  | [] => .ok ()
  | operands => f.fail (.arity f.head 0 operands.length)

/-- The only operand. -/
def oneOperand (f : Form) (operands : List Node) : Except ParseError Node :=
  match operands with
  | [a] => .ok a
  | operands => f.fail (.arity f.head 1 operands.length)

/-- The two operands. -/
def twoOperands (f : Form) (operands : List Node) : Except ParseError (Node × Node) :=
  match operands with
  | [a, b] => .ok (a, b)
  | operands => f.fail (.arity f.head 2 operands.length)

end Source.Form

namespace Declared

/-- The type of an opcode that is scalar. -/
def scalar : Declared → DataType
  | known type => type
  | someVector => .noType

end Declared

/-- Whether a constant fits a type, as a signed or as an unsigned number. -/
def DataType.admits (type : DataType) (v : Int64) : Bool :=
  let within (low high : Int) : Bool := low ≤ v.toInt && v.toInt ≤ high
  match type with
  | .int8 => within (-128) 255
  | .int16 => within (-32768) 65535
  | .int32 => within (-2147483648) 4294967295
  | _ => true

/-! ## The rules -/

/-- What the trees of a method can refer to. -/
structure Scope where
  params : List DataType
  returnType : DataType
  /-- The names of the blocks in their order. -/
  labels : List (Option String)

namespace Scope

/-- The block that the field `target` names. -/
def target (s : Scope) (f : Form) : Except ParseError Nat := do
  match ← f.name? "target" with
  | none => f.fail (.missingField f.head "target")
  | some label =>
    match s.labels.findIdx? (· == some label) with
    | some index => .ok index
    | none => f.fail (.undefinedLabel label)

/-- The type of a parameter. -/
def param? (s : Scope) (index : Int64) : Option DataType :=
  if index.toInt < 0 then none else s.params[index.toInt.toNat]?

/-- The value of a parameter. -/
def loadRule (s : Scope) (f : Form) (type : DataType) (operands : List Node) :
    Except ParseError Node := do
  f.checkFields ["parm"]
  f.noOperand operands
  let (index, position) ← f.int "parm"
  match s.param? index with
  | none => .error (.malformed position (.parameterRange index s.params.length))
  | some found =>
    if found = type then .ok (.node .load type (.parm (UInt32.ofInt index.toInt)) operands)
    else f.mismatch (.ofType type) (.ofType found)

/-- A constant: one number without a key.  An integer stands for a floating point number too. -/
def constRule (f : Form) (type : DataType) (operands : List Node) : Except ParseError Node := do
  if let some keyed := f.fields.find? fun field => field.key.isSome then
    .error (.malformed keyed.position (.fieldOnConstant f.head))
  f.noOperand operands
  match f.positional with
  | [] => f.fail (.constantNeedsValue f.head)
  | _ :: extra :: _ => .error (.malformed extra.position .constantNeedsSingleValue)
  | [field] =>
    match field.value, type.isFloating with
    | .int v, false =>
      if type.admits v then .ok (.node .const type (.int v) operands)
      else .error (.malformed field.position (.constantRange v type))
    | .int v, true => .ok (.node .const type (.float (Number.ofInt v.toInt)) operands)
    | .float bits, true => .ok (.node .const type (.float bits) operands)
    | _, _ => .error (.malformed field.position (.invalidLiteral f.head))

/-- The type of an indirect access; for vectors it is in a field. -/
def accessType (f : Form) (declared : Declared) : Except ParseError DataType := do
  match declared with
  | .known type =>
    f.checkFields ["offset"]
    .ok type
  | .someVector =>
    f.checkFields ["offset", "type"]
    match ← f.type? "type" with
    | none => f.fail (.missingField f.head "type")
    | some type =>
      if type.isVector then .ok type else f.mismatch .someVector (.ofType type)

/-- The byte offset of an indirect access, 0 if none is written. -/
def accessOffset (f : Form) : Except ParseError Int32 := do
  match ← f.int? "offset" with
  | none => .ok 0
  | some (v, position) =>
    if -2147483648 ≤ v.toInt ∧ v.toInt ≤ 2147483647 then .ok (Int32.ofInt v.toInt)
    else .error (.malformed position (.offsetRange v))

/-- A load through an address. -/
def loadIndirectRule (f : Form) (declared : Declared) (operands : List Node) :
    Except ParseError Node := do
  let type ← accessType f declared
  let address ← f.oneOperand operands
  f.expect address .address
  let offset ← accessOffset f
  .ok (.node .loadIndirect type (.offset offset) operands)

/-- A store through an address. -/
def storeIndirectRule (f : Form) (declared : Declared) (operands : List Node) :
    Except ParseError Node := do
  let type ← accessType f declared
  let (address, value) ← f.twoOperands operands
  f.expect address .address
  f.expect value type
  let offset ← accessOffset f
  .ok (.node .storeIndirect type (.offset offset) operands)

/-- Two operands of the type of the result. -/
def binaryRule (f : Form) (op : Opcode) (type : DataType) (operands : List Node) :
    Except ParseError Node := do
  f.checkFields []
  let (a, b) ← f.twoOperands operands
  f.expect a type
  f.expect b type
  .ok (.node op type .none operands)

/-- Arithmetic on vectors, whose type is in a field or else that of the first operand.  Only
floating point lanes can be divided. -/
def vectorRule (f : Form) (op : Opcode) (operands : List Node) : Except ParseError Node := do
  f.checkFields ["type"]
  let (a, b) ← f.twoOperands operands
  let type := (← f.type? "type").getD a.type
  match type.lane? with
  | none => f.mismatch .someVector (.ofType type)
  | some lane =>
    if op = .div && !lane.isFloat then f.mismatch .floatVector (.ofType type)
    f.expect a type
    f.expect b type
    .ok (.node op type .none operands)

/-- A shift or rotation: the count is a 32-bit integer. -/
def shiftRule (f : Form) (op : Opcode) (type : DataType) (operands : List Node) :
    Except ParseError Node := do
  f.checkFields []
  let (a, count) ← f.twoOperands operands
  f.expect a type
  f.expect count .int32
  .ok (.node op type .none operands)

/-- One operand of the type of the result. -/
def unaryRule (f : Form) (op : Opcode) (type : DataType) (operands : List Node) :
    Except ParseError Node := do
  f.checkFields []
  let a ← f.oneOperand operands
  f.expect a type
  .ok (.node op type .none operands)

/-- A return: of a value of the method's return type, or of nothing if that is no type. -/
def returnRule (s : Scope) (f : Form) (type : DataType) (operands : List Node) :
    Except ParseError Node := do
  f.checkFields []
  if type ≠ s.returnType then f.mismatch (.ofType s.returnType) (.ofType type)
  if type = .noType then f.noOperand operands
  else
    let value ← f.oneOperand operands
    f.expect value type
  .ok (.node .ret type .none operands)

/-- A jump to a block. -/
def gotoRule (s : Scope) (f : Form) (operands : List Node) : Except ParseError Node := do
  f.checkFields ["target"]
  f.noOperand operands
  let index ← s.target f
  .ok (.node .goto .noType (.target index) operands)

/-- A compare-and-branch. -/
def compareRule (s : Scope) (f : Form) (c : Condition) (type : DataType) (operands : List Node) :
    Except ParseError Node := do
  f.checkFields ["target"]
  let (a, b) ← f.twoOperands operands
  f.expect a type
  f.expect b type
  let index ← s.target f
  .ok (.node (.ifcmp c) type (.target index) operands)

/-- Compares the declared argument types of a call with its operands. -/
def expectArguments (f : Form) (position : Nat) : List Value → List Node → Except ParseError Unit
  | item :: items, operand :: operands => do
    f.expect operand (← DataType.ofValue position item)
    expectArguments f position items operands
  | _, _ => .ok ()

/-- A call of the code at an address. -/
def callRule (f : Form) (type : DataType) (operands : List Node) : Except ParseError Node := do
  f.checkFields ["address", "args"]
  let (address, position) ← f.int "address"
  if address.toInt < 0 then .error (.malformed position (.negativeCall address))
  if let some field := f.field? "args" then
    match field.value with
    | .list items =>
      if items.length ≠ operands.length then
        f.mismatch (.arguments items.length) (.arguments operands.length)
      expectArguments f field.position items operands
    | _ => .error (.malformed field.position .notATypeList)
  if let some bad := operands.find? fun operand => operand.type.isVector then
    f.mismatch .scalarArgument (.ofType bad.type)
  .ok (.node .call type (.address address.toUInt64) operands)

/-- The rule of an opcode. -/
def rule (s : Scope) (f : Form) (op : Opcode) (declared : Declared) (operands : List Node) :
    Except ParseError Node :=
  match op with
  | .load => s.loadRule f declared.scalar operands
  | .const => constRule f declared.scalar operands
  | .loadIndirect => loadIndirectRule f declared operands
  | .storeIndirect => storeIndirectRule f declared operands
  | .add | .sub | .mul | .div =>
    match declared with
    | .known type => binaryRule f op type operands
    | .someVector => vectorRule f op operands
  | .and | .or | .xor => binaryRule f op declared.scalar operands
  | .shl | .shr | .ushr | .rol => shiftRule f op declared.scalar operands
  | .neg | .sqrt => unaryRule f op declared.scalar operands
  | .ret => s.returnRule f declared.scalar operands
  | .goto => s.gotoRule f operands
  | .ifcmp c => s.compareRule f c declared.scalar operands
  | .call => callRule f declared.scalar operands

end Scope

/-- Whether a node can be the operand of another one. -/
def Node.producesValue (n : Node) : Bool :=
  match n.op with
  | .storeIndirect | .ret | .goto | .ifcmp _ => false
  | _ => n.type != .noType

mutual

/-- The tree of an expression. -/
def Scope.tree (s : Scope) : Expr → Except ParseError Node
  | .expr form children =>
    match Opcode.decode? form.head with
    | none => form.fail (.unknownOpcode form.head)
    | some (op, declared) => do
      let operands ← s.operands children
      s.rule form op declared operands

/-- The trees of the operands of an expression, each of which has a value. -/
def Scope.operands (s : Scope) : List Expr → Except ParseError (List Node)
  | [] => .ok []
  | e :: es => do
    let n ← s.tree e
    if !n.producesValue then e.form.fail (.noValue e.form.head)
    let ns ← s.operands es
    .ok (n :: ns)

end

/-! ## Methods -/

/-- The names of the blocks.  `seen` holds those of the blocks before, last one first. -/
def blockLabels (seen : List (Option String)) : List Expr → Except ParseError (List (Option String))
  | [] => .ok seen.reverse
  | block :: blocks => do
    let f := block.form
    if f.head ≠ "block" then f.fail (.expectedHead "block" f.head)
    f.checkFields ["name"]
    let label ← f.name? "name"
    if let some name := label then
      if seen.contains (some name) then f.fail (.duplicateLabel name)
    blockLabels (label :: seen) blocks

/-- The trees of a block. -/
def Scope.trees (s : Scope) (es : List Expr) : Except ParseError (List Node) := es.mapM s.tree

/-- The parameter types of a method; none if there is no list of them. -/
def paramTypes (f : Form) : Except ParseError (List DataType) :=
  match f.field? "args" with
  | none => .ok []
  | some field =>
    match field.value with
    | .list items => items.mapM (DataType.ofValue field.position)
    | _ => .error (.malformed field.position .notATypeList)

/-- The method of an expression. -/
def Method.ofExpr (e : Expr) : Except ParseError Method := do
  let f := e.form
  if f.head ≠ "method" then f.fail (.expectedHead "method" f.head)
  f.checkFields ["name", "return", "args"]
  let name ← f.name? "name"
  let returnType ←
    match ← f.type? "return" with
    | some type => .ok type
    | none => f.fail (.missingField f.head "return")
  let params ← paramTypes f
  if params.contains .noType then f.fail .parameterWithoutType
  if e.children.isEmpty then f.fail .noBlocks
  let labels ← blockLabels [] e.children
  let scope : Scope := ⟨params, returnType, labels⟩
  let bodies ← e.children.mapM fun block => scope.trees block.children
  .ok ⟨name, returnType, params, (labels.zip bodies).map fun (name, trees) => ⟨name, trees⟩⟩

/-- The method that a text describes. -/
def Method.parse (text : String) : Except ParseError Method := do
  let e ← Expr.ofText text
  Method.ofExpr e

end TreeCode
