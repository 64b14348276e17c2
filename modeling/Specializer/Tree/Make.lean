import Specializer.Tree.Update

/-!
# Common nodes

Shorthands for the node shapes that are made most often.
-/

namespace Specializer.TreeM

/-- A constant. -/
def makeConstant (value : Constant) (source : SourceRef) : TreeM NodeId :=
  newNode .constantRef source (.constant value) []

/-- A reference to a variable. -/
def makeVariableRef (id : VariableId) (source : SourceRef) : TreeM NodeId :=
  newNode .variableRef source (.var id) []

/-- A reference to a builtin. -/
def makeBuiltinRef (name : String) (source : SourceRef) : TreeM NodeId :=
  newNode .builtinRef source (.name name) []

/-- A reference to a builtin exception type. -/
def makeExceptionRef (kind : ExceptionKind) (source : SourceRef) : TreeM NodeId :=
  newNode .builtinExceptionRef source (.exception kind) []

/-- An expression that raises. -/
def makeRaise (raised : RaisedException) (source : SourceRef) : TreeM NodeId :=
  newNode .raiseException source (.raise raised) []

/-- An expression after others that are evaluated for their effect. -/
def makeSideEffects (effects : List NodeId) (expression : NodeId) (source : SourceRef) : TreeM NodeId :=
  newNode .sideEffects source .none [.many effects, .filled expression]

/-- A builtin operation, which has no payload. -/
def makeBuiltin (kind : NodeKind) (slots : List Slot) (source : SourceRef) : TreeM NodeId :=
  newNode kind source .none slots

/-- A call without star arguments. -/
def makeCall (called : NodeId) (positional pairs : List NodeId) (source : SourceRef) : TreeM NodeId :=
  newNode .functionCall source .none [.filled called, .many positional, .many pairs, .one none, .one none]

/-- A keyword argument or an entry of a dictionary. -/
def makeKeyValue (key value : NodeId) (source : SourceRef) : TreeM NodeId :=
  newNode .keyValuePair source .none [.filled key, .filled value]

/-- The lookup of an attribute. -/
def makeAttributeLookup (expression : NodeId) (name : String) (source : SourceRef) : TreeM NodeId :=
  newNode .attributeLookup source (.name name) [.filled expression]

/-- A sequence of statements. -/
def makeStatements (statements : List NodeId) (source : SourceRef) : TreeM NodeId :=
  newNode .statementsSequence source .none [.many statements]

/-- An expression as a statement. -/
def makeExpressionStatement (expression : NodeId) (source : SourceRef) : TreeM NodeId :=
  newNode .statementExpressionOnly source .none [.filled expression]

/-- An assignment to a variable. -/
def makeAssignment (id : VariableId) (value : NodeId) (source : SourceRef) : TreeM NodeId :=
  newNode .statementAssignmentVariable source (.var id) [.filled value]

/-- The release of a variable. -/
def makeRelease (id : VariableId) (source : SourceRef) : TreeM NodeId :=
  newNode .statementReleaseVariable source (.var id) []

/-- A module, function or class without its body, which follows once its variables are declared. -/
def makeScope (kind : NodeKind) (name : String) (source : SourceRef) : TreeM NodeId :=
  newNode kind source (.scope name) [.one none]

end Specializer.TreeM
