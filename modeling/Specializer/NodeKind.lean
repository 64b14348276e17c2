import Specializer.Capabilities

/-!
# Node kinds

The closed set of node kinds, the child slots of each in evaluation order, what evaluating a node of the kind may do,
and the keys of the builtin operations.
-/

namespace Specializer

/-- The kind of a node. -/
inductive NodeKind where
  | module
  | functionBody
  | classBody
  | statementsSequence
  | statementExpressionOnly
  | statementAssignmentVariable
  | statementReleaseVariable
  | statementExec
  | statementImportStar
  | constantRef
  | variableRef
  | functionCall
  | keyValuePair
  | attributeLookup
  | operationUnary
  | sideEffects
  | raiseException
  | builtinRef
  | builtinExceptionRef
  | builtinMakeException
  | builtinGlobals
  | builtinLocals
  | builtinDir0
  | builtinVars
  | builtinEval
  | builtinExec
  | builtinExecfile
  | builtinOpen
  | builtinImport
  | importModule
  | importModuleHard
  | importModuleNameHardExists
  | importModuleNameHardMaybeExists
  | importName
  | builtinChr
  | builtinOrd
  | builtinBin
  | builtinOct
  | builtinHex
  | builtinLen
  | builtinType1
  | builtinType3
  | builtinIter1
  | builtinIter2
  | builtinNext1
  | builtinNext2
  | builtinRange
  | builtinTuple
  | builtinList
  | builtinDict
  | builtinFloat
  | builtinStr
  | builtinBool
  | builtinInt
  | builtinLong
  deriving DecidableEq, Repr, Inhabited

/-- How many children a slot takes. -/
inductive Arity where
  | required
  | optional
  | sequence
  deriving DecidableEq, Repr

/-- The content an arity asks for, in words. -/
def Arity.describe : Arity → String
  | .required => "a node"
  | .optional => "a node or nothing"
  | .sequence => "a sequence"

/-- A named child slot. -/
structure SlotSpec where
  name : String
  arity : Arity
  deriving DecidableEq, Repr

namespace NodeKind

/-- Every kind, in the order of its declaration. -/
def all : List NodeKind :=
  [.module, .functionBody, .classBody, .statementsSequence, .statementExpressionOnly, .statementAssignmentVariable,
    .statementReleaseVariable, .statementExec, .statementImportStar, .constantRef, .variableRef, .functionCall,
    .keyValuePair, .attributeLookup, .operationUnary, .sideEffects, .raiseException, .builtinRef,
    .builtinExceptionRef, .builtinMakeException, .builtinGlobals, .builtinLocals, .builtinDir0, .builtinVars,
    .builtinEval, .builtinExec, .builtinExecfile, .builtinOpen, .builtinImport, .importModule, .importModuleHard,
    .importModuleNameHardExists, .importModuleNameHardMaybeExists, .importName, .builtinChr, .builtinOrd,
    .builtinBin, .builtinOct, .builtinHex, .builtinLen, .builtinType1, .builtinType3, .builtinIter1, .builtinIter2,
    .builtinNext1, .builtinNext2, .builtinRange, .builtinTuple, .builtinList, .builtinDict, .builtinFloat,
    .builtinStr, .builtinBool, .builtinInt, .builtinLong]

/-- The name of a kind. -/
def name : NodeKind → String
  | .module => "Module"
  | .functionBody => "FunctionBody"
  | .classBody => "ClassBody"
  | .statementsSequence => "StatementsSequence"
  | .statementExpressionOnly => "StatementExpressionOnly"
  | .statementAssignmentVariable => "StatementAssignmentVariable"
  | .statementReleaseVariable => "StatementReleaseVariable"
  | .statementExec => "StatementExec"
  | .statementImportStar => "StatementImportStar"
  | .constantRef => "ConstantRef"
  | .variableRef => "VariableRef"
  | .functionCall => "FunctionCall"
  | .keyValuePair => "KeyValuePair"
  | .attributeLookup => "AttributeLookup"
  | .operationUnary => "OperationUnary"
  | .sideEffects => "SideEffects"
  | .raiseException => "RaiseException"
  | .builtinRef => "BuiltinRef"
  | .builtinExceptionRef => "BuiltinExceptionRef"
  | .builtinMakeException => "BuiltinMakeException"
  | .builtinGlobals => "BuiltinGlobals"
  | .builtinLocals => "BuiltinLocals"
  | .builtinDir0 => "BuiltinDir0"
  | .builtinVars => "BuiltinVars"
  | .builtinEval => "BuiltinEval"
  | .builtinExec => "BuiltinExec"
  | .builtinExecfile => "BuiltinExecfile"
  | .builtinOpen => "BuiltinOpen"
  | .builtinImport => "BuiltinImport"
  | .importModule => "ImportModule"
  | .importModuleHard => "ImportModuleHard"
  | .importModuleNameHardExists => "ImportModuleNameHardExists"
  | .importModuleNameHardMaybeExists => "ImportModuleNameHardMaybeExists"
  | .importName => "ImportName"
  | .builtinChr => "BuiltinChr"
  | .builtinOrd => "BuiltinOrd"
  | .builtinBin => "BuiltinBin"
  | .builtinOct => "BuiltinOct"
  | .builtinHex => "BuiltinHex"
  | .builtinLen => "BuiltinLen"
  | .builtinType1 => "BuiltinType1"
  | .builtinType3 => "BuiltinType3"
  | .builtinIter1 => "BuiltinIter1"
  | .builtinIter2 => "BuiltinIter2"
  | .builtinNext1 => "BuiltinNext1"
  | .builtinNext2 => "BuiltinNext2"
  | .builtinRange => "BuiltinRange"
  | .builtinTuple => "BuiltinTuple"
  | .builtinList => "BuiltinList"
  | .builtinDict => "BuiltinDict"
  | .builtinFloat => "BuiltinFloat"
  | .builtinStr => "BuiltinStr"
  | .builtinBool => "BuiltinBool"
  | .builtinInt => "BuiltinInt"
  | .builtinLong => "BuiltinLong"

/-- A slot that always holds a node. -/
def required (name : String) : SlotSpec := ⟨name, .required⟩

/-- A slot that may be empty. -/
def optional (name : String) : SlotSpec := ⟨name, .optional⟩

/-- A slot that holds any number of nodes. -/
def sequence (name : String) : SlotSpec := ⟨name, .sequence⟩

/-- The child slots of a kind, in evaluation order. -/
def slots : NodeKind → List SlotSpec
  | .module | .functionBody | .classBody => [optional "body"]
  | .statementsSequence => [sequence "statements"]
  | .statementExpressionOnly => [required "expression"]
  | .statementAssignmentVariable => [required "source"]
  | .statementReleaseVariable => []
  | .statementExec | .builtinEval | .builtinExec | .builtinExecfile =>
    [required "source_code", optional "globals", optional "locals"]
  | .statementImportStar => [required "module"]
  | .constantRef | .variableRef | .raiseException => []
  | .functionCall =>
    [required "called", sequence "positional_args", sequence "pairs", optional "list_star_arg",
      optional "dict_star_arg"]
  | .keyValuePair => [required "key", required "value"]
  | .attributeLookup => [required "expression"]
  | .operationUnary => [required "operand"]
  | .sideEffects => [sequence "side_effects", required "expression"]
  | .builtinRef | .builtinExceptionRef => []
  | .builtinMakeException => [sequence "args"]
  | .builtinGlobals | .builtinLocals | .builtinDir0 => []
  | .builtinVars => [required "source"]
  | .builtinOpen => [required "filename", optional "mode", optional "buffering"]
  | .builtinImport => [required "name", optional "globals", optional "locals", optional "fromlist", optional "level"]
  | .importModule | .importModuleHard | .importModuleNameHardExists | .importModuleNameHardMaybeExists => []
  | .importName => [required "module"]
  | .builtinChr | .builtinOrd | .builtinBin | .builtinOct | .builtinHex | .builtinLen | .builtinType1
  | .builtinIter1 | .builtinNext1 => [required "value"]
  | .builtinType3 => [required "type_name", required "bases", required "type_dict"]
  | .builtinIter2 => [required "callable", required "sentinel"]
  | .builtinNext2 => [required "iterator", required "default"]
  | .builtinRange => [required "low", optional "high", optional "step"]
  | .builtinTuple | .builtinList | .builtinFloat | .builtinStr | .builtinBool => [optional "value"]
  | .builtinDict => [optional "pos_arg", sequence "pairs"]
  | .builtinInt | .builtinLong => [optional "value", optional "base"]

/-- The position of the slot with a given name. -/
def slotIndex? (kind : NodeKind) (slot : String) : Option Nat := kind.slots.findIdx? (·.name == slot)

/-- What a node of the kind is and what evaluating it may do. A kind without better knowledge may raise and may have
side effects. -/
def capabilities : NodeKind → Capabilities
  | .module => { scope := true }
  | .functionBody => { scope := true, expression := true }
  | .classBody => { scope := true, expression := true, mayRaise := true, sideEffects := true }
  | .statementsSequence | .statementExpressionOnly | .statementAssignmentVariable | .statementReleaseVariable =>
    { statement := true }
  | .statementExec => { statement := true, mayRaise := true, sideEffects := true }
  | .statementImportStar => { statement := true, imports := true, mayRaise := true, sideEffects := true }
  | .constantRef => { expression := true, constant := true }
  | .variableRef => { expression := true, mayRaise := true }
  | .functionCall | .attributeLookup | .operationUnary => { expression := true, mayRaise := true, sideEffects := true }
  | .keyValuePair | .sideEffects => { expression := true }
  | .raiseException => { expression := true, mayRaise := true, alwaysRaises := true }
  | .builtinRef | .builtinExceptionRef | .builtinMakeException | .builtinGlobals | .builtinLocals | .builtinDir0
  | .builtinType1 => { expression := true, builtin := true }
  | .builtinVars => { expression := true, builtin := true, mayRaise := true }
  | .builtinImport => { Capabilities.operation with imports := true }
  | .importModule | .importName => { expression := true, imports := true, mayRaise := true, sideEffects := true }
  | .importModuleHard | .importModuleNameHardExists => { expression := true, imports := true }
  | .importModuleNameHardMaybeExists => { expression := true, imports := true, mayRaise := true }
  | .builtinEval | .builtinExec | .builtinExecfile | .builtinOpen | .builtinChr | .builtinOrd | .builtinBin
  | .builtinOct | .builtinHex | .builtinLen | .builtinType3 | .builtinIter1 | .builtinIter2 | .builtinNext1
  | .builtinNext2 | .builtinRange | .builtinTuple | .builtinList | .builtinDict | .builtinFloat | .builtinStr
  | .builtinBool | .builtinInt | .builtinLong => Capabilities.operation

/-- Whether nodes of the kind own variables. -/
def isScope (kind : NodeKind) : Bool := kind.capabilities.scope

/-- Whether nodes of the kind have a value. -/
def isExpression (kind : NodeKind) : Bool := kind.capabilities.expression

/-- Whether nodes of the kind are statements. -/
def isStatement (kind : NodeKind) : Bool := kind.capabilities.statement

/-- The key of a builtin operation, `none` for every other kind. -/
def builtinKey? : NodeKind → Option String
  | .builtinChr => some "chr"
  | .builtinOrd => some "ord"
  | .builtinBin => some "bin"
  | .builtinOct => some "oct"
  | .builtinHex => some "hex"
  | .builtinLen => some "len"
  | .builtinType1 => some "type1"
  | .builtinType3 => some "type3"
  | .builtinIter1 => some "iter1"
  | .builtinIter2 => some "iter2"
  | .builtinNext1 => some "next1"
  | .builtinNext2 => some "next2"
  | .builtinRange => some "range"
  | .builtinTuple => some "tuple"
  | .builtinList => some "list"
  | .builtinDict => some "dict"
  | .builtinFloat => some "float"
  | .builtinStr => some "str"
  | .builtinBool => some "bool"
  | .builtinInt => some "int"
  | .builtinLong => some "long"
  | .builtinImport => some "import"
  | .builtinVars => some "vars"
  | .builtinDir0 => some "dir0"
  | .builtinGlobals => some "globals"
  | .builtinLocals => some "locals"
  | .builtinEval => some "eval"
  | .builtinExec => some "exec"
  | .builtinExecfile => some "execfile"
  | .builtinOpen => some "open"
  | _ => none

/-- Whether the kind is a specific builtin operation rather than a generic call or reference. -/
def isBuiltinOperation (kind : NodeKind) : Bool := kind.builtinKey?.isSome

/-- The kind with a given name. -/
def ofName? (name : String) : Option NodeKind := all.find? (·.name == name)

theorem mem_all (kind : NodeKind) : kind ∈ all := by
  cases kind <;> decide

end NodeKind

end Specializer
