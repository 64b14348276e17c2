import Specializer.DispatchTable
import Specializer.Replacement.CallSite

/-!
# Specializing builtin calls

Calls of builtins become nodes of their own kind. A call that is bound to fail becomes a raise of the `TypeError` it
would produce, after its arguments. Builtins that look at the calling frame are always specialized; all others only on
demand.
-/

namespace Specializer

namespace ReplaceM

/-- The arguments of a call, bound or not. -/
inductive CallBinding where
  | bound (args : BoundArguments NodeId)
  /-- The call fails; this node raises instead. -/
  | raised (node : NodeId)
  /-- The keywords are evaluated in an order that the parameters cannot keep. -/
  | kept

/-- Binds the arguments of a call. -/
def bindCall (site : CallSite) (signature : Signature) : ReplaceM CallBinding := do
  match signature.bind site.positional site.keywords with
  | .ok args => return if signature.keywordsInOrder site.keywords then .bound args else .kept
  | .error error =>
    let raised : RaisedException := ⟨.typeError, signature.errorMessage error⟩
    return .raised (← onTree (TreeM.raiseAfter raised site.arguments site.source))

/-- Binds the arguments of a call and builds its replacement from them. -/
def withBound (site : CallSite) (signature : Signature)
    (build : BoundArguments NodeId → ReplaceM (Option NodeId)) : ReplaceM (Option NodeId) := do
  match ← bindCall site signature with
  | .bound args => build args
  | .raised node => return some node
  | .kept => return none

/-- Takes the argument of a parameter out of the call, as the content of a slot. -/
def takeSlot (args : BoundArguments NodeId) (index : Nat) : ReplaceM Slot :=
  return .one (← onTree (TreeM.take (args.get? index)))

/-- A builtin operation in the place of the call. -/
def makeOperation (site : CallSite) (kind : NodeKind) (slots : List Slot) : ReplaceM (Option NodeId) :=
  return some (← onTree (TreeM.makeBuiltin kind slots site.source))

/-- Moves every argument into the slot at the position of its parameter. -/
def specialize (signature : Signature) (kind : NodeKind) (site : CallSite) : ReplaceM (Option NodeId) :=
  withBound site signature fun args => do
    let slots ← (List.range args.values.length).mapM (takeSlot args)
    makeOperation site kind slots

/-- What `locals()` means at a call: in a module it is `globals()`. -/
def localsOrGlobals (site : CallSite) : ReplaceM (Option NodeId) := do
  let inModule ← match ← ask (·.providerOf site.call) with
    | none => pure true
    | some provider => pure ((← ask (·.kind provider)) = .module)
  makeOperation site (if inModule then .builtinGlobals else .builtinLocals) []

/-- Specializes `locals()`. -/
def specializeLocals (site : CallSite) : ReplaceM (Option NodeId) :=
  withBound site .locals fun _ => localsOrGlobals site

/-- Specializes `exec`, a builtin of the newer version. -/
def specializeExec (site : CallSite) : ReplaceM (Option NodeId) := do
  if (← version).isPython3 then specialize .exec .builtinExec site else return none

/-- Makes `open(filename, "rU").read()` over the first argument. -/
def openAndRead (site : CallSite) (args : BoundArguments NodeId) : ReplaceM NodeId := do
  let filename ← takeSlot args 0
  let mode ← onTree (TreeM.makeConstant (.str "rU") site.source)
  let opened ← onTree (TreeM.makeBuiltin .builtinOpen [filename, .filled mode, .one none] site.source)
  let read ← onTree (TreeM.makeAttributeLookup opened "read" site.source)
  onTree (TreeM.makeCall read [] [] site.source)

/-- The slots of an execution of a file: its text, the globals and the locals. -/
def execfileSlots (site : CallSite) (args : BoundArguments NodeId) : ReplaceM (List Slot) := do
  let sourceCode ← openAndRead site args
  let globals ← takeSlot args 1
  let locals ← takeSlot args 2
  return [.filled sourceCode, globals, locals]

/-- Specializes `execfile`, a builtin of the older version. -/
def specializeExecfile (site : CallSite) : ReplaceM (Option NodeId) := do
  if (← version).isPython3 then return none
  withBound site .execfile fun args => do makeOperation site .builtinExecfile (← execfileSlots site args)

/-- Specializes `dir()` without an argument. -/
def specializeDir (site : CallSite) : ReplaceM (Option NodeId) :=
  withBound site .dir fun args =>
    if args.given = 0 then makeOperation site .builtinDir0 [] else return none

/-- Specializes `vars`, which is `locals()` without an argument. -/
def specializeVars (site : CallSite) : ReplaceM (Option NodeId) :=
  withBound site .vars fun args => do
    if args.given = 0 then localsOrGlobals site
    else makeOperation site .builtinVars [← takeSlot args 0]

/-- Specializes `type` with one or three arguments. -/
def specializeType (site : CallSite) : ReplaceM (Option NodeId) := do
  if !site.keywords.isEmpty then return none
  let kind? : Option NodeKind := match site.positional.length with
    | 1 => some .builtinType1
    | 3 => some .builtinType3
    | _ => none
  match kind? with
  | none => return none
  | some kind =>
    let taken ← site.positional.mapM fun id => onTree (TreeM.detach id)
    makeOperation site kind (taken.map .filled)

/-- A builtin with different kinds for one and for two arguments. -/
def specializeOneOrTwo (signature : Signature) (one two : NodeKind) (site : CallSite) : ReplaceM (Option NodeId) :=
  withBound site signature fun args => do
    let first ← takeSlot args 0
    match ← onTree (TreeM.take (args.get? 1)) with
    | none => makeOperation site one [first]
    | some second => makeOperation site two [first, .filled second]

/-- An entry of a dictionary for a keyword argument. -/
def makeEntry (keyword : String × NodeId) : ReplaceM NodeId := do
  let source ← ask (·.source keyword.2)
  let value ← onTree (TreeM.detach keyword.2)
  let key ← onTree (TreeM.makeConstant (.str keyword.1) source)
  onTree (TreeM.makeKeyValue key value source)

/-- Specializes `dict`; keywords become entries. -/
def specializeDict (site : CallSite) : ReplaceM (Option NodeId) :=
  withBound site .dict fun args => do
    let positional ← takeSlot args 0
    let entries ← args.starDict.mapM makeEntry
    makeOperation site .builtinDict [positional, .many entries]

/-- Specializes `long`, a builtin of the older version. -/
def specializeLong (site : CallSite) : ReplaceM (Option NodeId) := do
  if (← version).isPython3 then return none
  specialize .long .builtinLong site

/-- Specializes `repr`, which is a unary operation. -/
def specializeRepr (site : CallSite) : ReplaceM (Option NodeId) :=
  withBound site .repr fun args => do
    return some (← onTree (TreeM.newNode .operationUnary site.source (.unary .repr) [← takeSlot args 0]))

/-- The name of a builtin exception makes the exception from the arguments in order. -/
def specializeException (site : CallSite) : ReplaceM (Option NodeId) := do
  match ExceptionKind.ofName? (← version) site.name with
  | none => return none
  | some kind =>
    withBound site (.ofException kind) fun args => do
      let taken ← args.starList.mapM fun id => onTree (TreeM.detach id)
      return some (← onTree (TreeM.newNode .builtinMakeException site.source (.exception kind) [.many taken]))

end ReplaceM

/-- Builds the replacement of a call, `none` to keep the call. -/
abbrev CallHandler := CallSite → ReplaceM (Option NodeId)

namespace CallHandler

open ReplaceM

/-- The builtins that look at the calling frame. -/
def critical : DispatchTable String CallHandler :=
  .ofList [
    ("globals", specialize .globals .builtinGlobals),
    ("locals", specializeLocals),
    ("eval", specialize .eval .builtinEval),
    ("exec", specializeExec),
    ("execfile", specializeExecfile)]

/-- All other builtins; names without an entry may be exceptions. -/
def optional : DispatchTable String CallHandler :=
  (DispatchTable.ofList [
    ("dir", specializeDir),
    ("vars", specializeVars),
    ("__import__", specialize .importModule .builtinImport),
    ("chr", specialize .chr .builtinChr),
    ("ord", specialize .ord .builtinOrd),
    ("bin", specialize .bin .builtinBin),
    ("oct", specialize .oct .builtinOct),
    ("hex", specialize .hex .builtinHex),
    ("type", specializeType),
    ("iter", specializeOneOrTwo .iter .builtinIter1 .builtinIter2),
    ("next", specializeOneOrTwo .next .builtinNext1 .builtinNext2),
    ("range", specialize .range .builtinRange),
    ("tuple", specialize .tuple .builtinTuple),
    ("list", specialize .list .builtinList),
    ("dict", specializeDict),
    ("float", specialize .float .builtinFloat),
    ("str", specialize .str .builtinStr),
    ("bool", specialize .bool .builtinBool),
    ("int", specialize .int .builtinInt),
    ("long", specializeLong),
    ("repr", specializeRepr),
    ("len", specialize .len .builtinLen)]).withFallback specializeException

end CallHandler

namespace ReplaceM

/-- Whether a statement stands in a class body. -/
def isInClass (id : NodeId) : ReplaceM Bool := do
  match ← ask (·.providerOf id) with
  | none => return false
  | some provider => return (← ask (·.kind provider)) = .classBody

/-- In the older version, `execfile(...)` as a statement of a class body runs in the namespace of the class. A call
that is bound to fail is left to the expression form. -/
def replaceExecStatement (id : NodeId) : ReplaceM (Option NodeId) := do
  if (← ask (·.kind id)) ≠ .statementExpressionOnly then return none
  let some expression ← ask (·.child id "expression") | return none
  let some (variableId, name) := (← tree).calledBuiltin? (← version) expression | return none
  if name ≠ "execfile" ∨ (← version).isPython3 then return none
  if !(← isInClass id) then return none
  let some site ← ask (CallSite.read · expression variableId name) | return none
  let .ok args := Signature.execfile.bind site.positional site.keywords | return none
  if !Signature.execfile.keywordsInOrder site.keywords then return none
  let statement ← onTree (TreeM.newNode .statementExec site.source .none (← execfileSlots site args))
  replaceNode id statement
  signal { newBuiltin := true } site.source
    "Replaced call to built-in 'execfile' in class body with exec statement."
  reconsiderVariable variableId site.source
  return some statement

/-- Replaces a call of a builtin that has a handler. Returns the node now in its place. -/
def replaceCall (handlers : DispatchTable String CallHandler) (id : NodeId) : ReplaceM NodeId := do
  let some (variableId, name) := (← tree).calledBuiltin? (← version) id | return id
  let some handler := handlers.lookup? name | return id
  let some site ← ask (CallSite.read · id variableId name) | return id
  let some replacement ← handler site | return id
  let tags ← ask (·.classifyReplacement replacement)
  let kind ← ask (·.kind replacement)
  let description := if tags.newRaise then "exception raise" else kind.name
  replaceNode id replacement
  signal tags site.source s!"Replaced call to built-in '{name}' with {description}."
  reconsiderVariable variableId site.source
  return replacement

/-- Specializes the builtins that look at the calling frame. -/
def replaceCriticalBuiltin (id : NodeId) : ReplaceM NodeId := do
  match ← replaceExecStatement id with
  | some statement => return statement
  | none => replaceCall CallHandler.critical id

/-- Specializes all other builtins. -/
def replaceOptionalBuiltin (id : NodeId) : ReplaceM NodeId := replaceCall CallHandler.optional id

end ReplaceM

end Specializer
