import Specializer.Constant.Basic
import Specializer.ModuleName
import Specializer.NodeKind
import Specializer.RaisedException
import Specializer.SourceRef

/-!
# Nodes and variables

Nodes and variables are addressed by handles. A node owns its children through its slots and knows its parent; what
else it carries is its payload, whose form its kind decides.
-/

namespace Specializer

/-- The handle of a node. -/
structure NodeId where
  index : Nat
  deriving DecidableEq, Repr, Inhabited, Hashable

/-- The text of a handle, such as `#3`. -/
def NodeId.render (id : NodeId) : String := "#" ++ toString id.index

/-- The handle of a variable. -/
structure VariableId where
  index : Nat
  deriving DecidableEq, Repr, Inhabited, Hashable

/-- The text of a handle, such as `v3`. -/
def VariableId.render (id : VariableId) : String := "v" ++ toString id.index

/-- The content of a child slot. -/
inductive Slot where
  | one (child : Option NodeId)
  | many (children : List NodeId)
  deriving DecidableEq, Repr, Inhabited

namespace Slot

/-- A slot filled with a node. -/
def filled (id : NodeId) : Slot := .one (some id)

/-- The children in the slot. -/
def ids : Slot → List NodeId
  | .one child => child.toList
  | .many children => children

/-- The content in words. -/
def describe : Slot → String
  | .one (some _) => "a node"
  | .one none => "nothing"
  | .many _ => "a sequence"

/-- Whether the content suits an arity. -/
def fits : Slot → Arity → Bool
  | .one (some _), .required => true
  | .one _, .optional => true
  | .many _, .sequence => true
  | _, _ => false

/-- Puts `new` in the first place of `old`, `none` if the slot does not hold it. -/
def replace? (old new : NodeId) : Slot → Option Slot
  | .one child => if child = some old then some (.one (some new)) else none
  | .many children =>
    if old ∈ children then some (.many (children.replace old new)) else none

/-- Takes a child out of the slot, `none` if the slot does not hold it. -/
def remove? (id : NodeId) : Slot → Option Slot
  | .one child => if child = some id then some (.one none) else none
  | .many children =>
    if id ∈ children then some (.many (children.filter (· ≠ id))) else none

end Slot

/-- The unary operators; `repr` is the textual form of a value. -/
inductive UnaryOperator where
  | repr
  | not
  | minus
  | plus
  | invert
  deriving DecidableEq, Repr, Inhabited

/-- The name of an operator. -/
def UnaryOperator.name : UnaryOperator → String
  | .repr => "Repr"
  | .not => "Not"
  | .minus => "Minus"
  | .plus => "Plus"
  | .invert => "Invert"

/-- A static import of a module. -/
structure ImportSpec where
  module : ModuleName
  /-- The names asked for, empty for a plain import. -/
  names : List String
  level : Int64
  deriving DecidableEq, Repr, Inhabited

/-- An import of a module known to exist, or of a name inside it. -/
structure HardImportSpec where
  module : ModuleName
  name : Option String
  finding : ModuleFinding
  deriving DecidableEq, Repr, Inhabited

/-- The forms of payload. -/
inductive PayloadForm where
  | none
  | constant
  | var
  | name
  | exception
  | unary
  | scope
  | raise
  | moduleImport
  | hardImport
  | importName
  deriving DecidableEq, Repr

/-- The name of a form. -/
def PayloadForm.label : PayloadForm → String
  | .none => "none"
  | .constant => "constant"
  | .var => "variable"
  | .name => "name"
  | .exception => "exception"
  | .unary => "unary"
  | .scope => "scope"
  | .raise => "raise"
  | .moduleImport => "import"
  | .hardImport => "hard_import"
  | .importName => "import_name"

/-- What a node carries besides its children. -/
inductive Payload where
  | none
  | constant (value : Constant)
  /-- The variable a node reads, writes or releases. -/
  | var (id : VariableId)
  /-- The name of a builtin or of an attribute. -/
  | name (text : String)
  | exception (kind : ExceptionKind)
  | unary (operator : UnaryOperator)
  /-- The name of a module, function or class. -/
  | scope (name : String)
  | raise (exception : RaisedException)
  | moduleImport (spec : ImportSpec)
  | hardImport (spec : HardImportSpec)
  | importName (name : String) (level : Int64)
  deriving Inhabited

/-- The form of a payload. -/
def Payload.form : Payload → PayloadForm
  | .none => .none
  | .constant _ => .constant
  | .var _ => .var
  | .name _ => .name
  | .exception _ => .exception
  | .unary _ => .unary
  | .scope _ => .scope
  | .raise _ => .raise
  | .moduleImport _ => .moduleImport
  | .hardImport _ => .hardImport
  | .importName .. => .importName

/-- The form of payload nodes of a kind carry. -/
def NodeKind.payloadForm : NodeKind → PayloadForm
  | .module | .functionBody | .classBody => .scope
  | .statementAssignmentVariable | .statementReleaseVariable | .variableRef => .var
  | .constantRef => .constant
  | .attributeLookup | .builtinRef => .name
  | .builtinExceptionRef | .builtinMakeException => .exception
  | .operationUnary => .unary
  | .raiseException => .raise
  | .importModule => .moduleImport
  | .importModuleHard | .importModuleNameHardExists | .importModuleNameHardMaybeExists => .hardImport
  | .importName => .importName
  | _ => .none

/-- A node of a tree. -/
structure Node where
  kind : NodeKind
  parent : Option NodeId := none
  slots : List Slot
  source : SourceRef
  payload : Payload
  /-- What is known about this one node, in place of what its kind says. -/
  override : Option Capabilities := none
  deriving Inhabited

namespace Node

/-- The capabilities of this node. -/
def capabilities (n : Node) : Capabilities := n.override.getD n.kind.capabilities

/-- The children in slot order. -/
def children (n : Node) : List NodeId := n.slots.flatMap Slot.ids

/-- The variable the node reads, writes or releases. -/
def referent? (n : Node) : Option VariableId :=
  match n.payload with
  | .var id => some id
  | _ => none

/-- The value of a constant node. -/
def constant? (n : Node) : Option Constant :=
  match n.payload with
  | .constant value => some value
  | _ => none

end Node

/-- How a variable is stored. -/
inductive VariableKind where
  /-- A global of the module. -/
  | module
  | localScope
  /-- A name used in a class body: local if the class binds it, otherwise the global. -/
  | maybeLocal
  /-- A holder that stands in no source. -/
  | temp
  deriving DecidableEq, Repr, Inhabited

/-- The name of a kind of variable. -/
def VariableKind.name : VariableKind → String
  | .module => "Module"
  | .localScope => "Local"
  | .maybeLocal => "MaybeLocal"
  | .temp => "Temp"

/-- A place a name stands for. -/
structure Variable where
  name : String
  /-- The scope the variable belongs to. -/
  owner : NodeId
  kind : VariableKind
  /-- Known never to be rebound; false until shown. -/
  readOnly : Bool := false
  /-- The reachable references, as of the last count. -/
  usageCount : Nat := 0
  deriving DecidableEq, Repr, Inhabited

end Specializer
