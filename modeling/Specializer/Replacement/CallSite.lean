import Specializer.Replacement.Context
import Specializer.Signature.Table

/-!
# Call sites

The calls of builtins as they stand in the source, and the pieces that replace them.
-/

namespace Specializer

/-- A call of a builtin through a variable that is never rebound. -/
structure CallSite where
  call : NodeId
  variableId : VariableId
  name : String
  positional : List NodeId
  /-- The keywords with the nodes of their values. -/
  keywords : List (String × NodeId)
  source : SourceRef
  deriving DecidableEq, Repr

namespace CallSite

/-- The keywords of a call, `none` if a key is no constant text. -/
def readKeywords (t : Tree) : List NodeId → Except TreeError (Option (List (String × NodeId)))
  | [] => return some []
  | pair :: rest => do
    let key ← t.child pair "key"
    let value ← t.child pair "value"
    match key.bind t.constant?, value with
    | some (.str keyword), some value => return (← readKeywords t rest).map ((keyword, value) :: ·)
    | _, _ => return none

/-- Reads the arguments of a call, `none` if it has star arguments or a keyword that is no constant text. -/
def read (t : Tree) (call : NodeId) (variableId : VariableId) (name : String) :
    Except TreeError (Option CallSite) := do
  if (← t.child call "list_star_arg").isSome then return none
  if (← t.child call "dict_star_arg").isSome then return none
  match ← readKeywords t (← t.childrenIn call "pairs") with
  | none => return none
  | some keywords =>
    let positional ← t.childrenIn call "positional_args"
    return some { call, variableId, name, positional, keywords, source := ← t.source call }

/-- All arguments in the order they are evaluated. -/
def arguments (site : CallSite) : List NodeId := site.positional ++ site.keywords.map (·.2)

end CallSite

namespace TreeM

/-- Takes an argument out of its call, so that it can move into the replacement. -/
def take : Option NodeId → TreeM (Option NodeId)
  | none => return none
  | some id => return some (← detach id)

/-- Takes arguments out of their parents, and tears down those whose evaluation cannot be noticed. -/
def keepObservable : List NodeId → TreeM (List NodeId)
  | [] => return []
  | id :: rest => do
    let _ ← detach id
    if ← query (·.isObservable id) then return id :: (← keepObservable rest)
    else
      finalize id
      keepObservable rest

/-- An expression that evaluates what can be noticed of some arguments, in order, and then raises. -/
def raiseAfter (raised : RaisedException) (arguments : List NodeId) (source : SourceRef) : TreeM NodeId := do
  let kept ← keepObservable arguments
  let raise ← makeRaise raised source
  if kept.isEmpty then return raise else makeSideEffects kept raise source

end TreeM

/-- The sort of change a replacement is, by its kind. -/
def Tree.classifyReplacement (t : Tree) (id : NodeId) : Except TreeError ChangeTags := do
  let n ← t.node id
  match n.kind with
  | .builtinImport => return { newBuiltin := true, newImport := true }
  | .raiseException => return ChangeTags.raising
  | .sideEffects =>
    match ← t.child id "expression" with
    | none => return { newExpression := true }
    | some expression =>
      if (← t.kind expression) = .raiseException then return ChangeTags.raising else return { newExpression := true }
  | .operationUnary =>
    match n.payload with
    | .unary .repr => return { newExpression := true }
    | _ => return { newBuiltin := true }
  | .constantRef => return { newConstant := true }
  | _ => return { newBuiltin := true }

end Specializer
