import Specializer.Replacement.CallSite

/-!
# Computing nodes

What a node does once its children have been visited: it tells the trace what control may do, and may offer a
replacement for itself. Builtin operations over constants are evaluated.
-/

namespace Specializer

/-- The outcome of computing a node. -/
structure Computed where
  /-- The node to use from now on, detached if it is another one. -/
  node : NodeId
  /-- What changed, with a description; `none` if nothing did. -/
  change : Option (ChangeTags × String) := none
  deriving DecidableEq, Repr

namespace Computed

/-- Nothing changed. -/
def unchanged (node : NodeId) : Computed := { node }

/-- Something changed. -/
def changed (node : NodeId) (tags : ChangeTags) (description : String) : Computed :=
  { node, change := some (tags, description) }

/-- Whether something changed. -/
def isChanged (c : Computed) : Bool := c.change.isSome

end Computed

namespace Tree

/-- The entries of a dictionary operation, `none` unless all of them are constant and their keys are texts. -/
def constantEntries (t : Tree) : List NodeId → Except TreeError (Option (List (String × Constant)))
  | [] => return some []
  | pair :: rest => do
    let key := (← t.child pair "key").bind t.constant?
    let value := (← t.child pair "value").bind t.constant?
    match key, value with
    | some (.str key), some value => return (← constantEntries t rest).map ((key, value) :: ·)
    | _, _ => return none

/-- The operands in some slots, `none` unless all of them are constant. -/
def constantOperands (t : Tree) (id : NodeId) : List SlotSpec → Except TreeError (Option (List (Option Constant)))
  | [] => return some []
  | spec :: rest => do
    match ← t.child id spec.name with
    | none => return (← constantOperands t id rest).map (none :: ·)
    | some operand => match t.constant? operand with
      | some value => return (← constantOperands t id rest).map (some value :: ·)
      | none => return none

/-- The operands of a builtin operation bound to its parameters, `none` unless all of them are constant. -/
def constantArguments (t : Tree) (id : NodeId) : Except TreeError (Option (BoundArguments Constant)) := do
  let kind ← t.kind id
  if kind = .builtinDict then
    match ← t.constantOperands id [⟨"pos_arg", .optional⟩] with
    | none => return none
    | some values => return (← t.constantEntries (← t.childrenIn id "pairs")).map fun starDict => { values, starDict }
  else return (← t.constantOperands id kind.slots).map fun values => { values }

/-- The package that relative imports of the module start from. -/
def parentPackage? (t : Tree) : Option ModuleName := do
  let root ← t.root
  let n ← t.get? root
  match n.payload with
  | .scope name => ModuleName.package? ⟨name⟩
  | _ => none

end Tree

/-- The sort of change that dropping side effects is. -/
def ChangeTags.expression : ChangeTags := { newExpression := true }

namespace TreeM

/-- Takes nodes out of their parents and tears them down. -/
def discardAll : List NodeId → TreeM Unit
  | [] => return ()
  | id :: rest => do
    let _ ← detach id
    finalize id
    discardAll rest

/-- Drops the side effects that cannot be noticed; without any left only the expression remains. -/
def computeSideEffects (id : NodeId) : TreeM Computed := do
  let t ← get
  let effects ← ofExcept (t.childrenIn id "side_effects")
  let dropped ← effects.filterM fun effect => return !(← ofExcept (t.isObservable effect))
  if dropped.isEmpty then return .unchanged id
  discardAll dropped
  let removed := Computed.changed id .expression s!"Removed {dropped.length} side effect free expressions."
  if (← query (·.childrenIn id "side_effects")).isEmpty then
    match ← detachSlot id "expression" with
    | some expression =>
      return .changed expression .expression "Side effects removed, only the expression remains."
    | none => return removed
  else return removed

end TreeM

namespace ReplaceM

/-- Replaces a builtin operation over constants by its value or by the exception it raises. -/
def foldBuiltin (id : NodeId) (signature : Signature) : ReplaceM Computed := do
  match signature.evaluator with
  | none => return .unchanged id
  | some builtin =>
    match ← ask (·.constantArguments id) with
    | none => return .unchanged id
    | some arguments =>
      let source ← ask (·.source id)
      match builtin.evaluate arguments (← version) with
      | .ok value =>
        let constant ← onTree (TreeM.makeConstant value source)
        return .changed constant { newConstant := true } s!"Built-in call to '{signature.name}' pre-computed."
      | .error (.raise raised) =>
        recordExit raised.kind source
        let raise ← onTree (TreeM.makeRaise raised source)
        return .changed raise { newRaise := true }
          s!"Built-in call to '{signature.name}' pre-computed to raise {raised.kind.name}."
      | .error .decline => return .unchanged id

/-- The import of a module: one that is nowhere raises, a hard one becomes static, one built into the interpreter runs
no code, and any other may raise anything. -/
def computeImportModule (id : NodeId) (spec : ImportSpec) (source : SourceRef) : ReplaceM Computed := do
  let locator := (← read).locator
  let (resolved, finding) := locator.locate spec.module (← tree).parentPackage? spec.level
  if finding = .notFound then
    recordExit .importError source
    return .unchanged id
  else if resolved = spec.module ∧ HardImport.isHardModule resolved then
    let hard ← onCompile (HardImport.makeModule locator resolved source)
    return .changed hard { newImport := true } s!"Import of hard module '{resolved.text}' made static."
  else if finding = .builtIn then
    unless (← ask (·.capabilities id)) = Capabilities.quietImport do
      onTree (TreeM.setCapabilities id .quietImport)
    return .unchanged id
  else
    recordExit .baseException source
    return .unchanged id

/-- The module of a hard import of a whole module. -/
def hardModule? : Payload → Option ModuleName
  | .hardImport { module, name := none, .. } => some module
  | _ => none

/-- The import of a name: from a hard module it becomes static, from any other it may fail. -/
def computeImportName (id : NodeId) (name : String) (source : SourceRef) : ReplaceM Computed := do
  let payload? ← match ← ask (·.child id "module") with
    | none => pure none
    | some module => do pure (some (← ask (·.payload module)))
  match payload?.bind hardModule? with
  | none =>
    recordExit .importError source
    return .unchanged id
  | some module =>
    let replacement ← onCompile (HardImport.makeName (← read).locator (← version) module name source)
    if (← ask (·.kind replacement)) = .importModuleNameHardMaybeExists then recordExit .attributeError source
    return .changed replacement { newImport := true }
      s!"Import of '{name}' from hard module '{module.text}' made static."

/-- Computes a node. -/
def computeNode (id : NodeId) : ReplaceM Computed := do
  let n ← ask (·.node id)
  match n.kind with
  | .raiseException =>
    if let .raise raised := n.payload then recordExit raised.kind n.source
    abort
    return .unchanged id
  | .sideEffects => onTree (TreeM.computeSideEffects id)
  | .builtinVars =>
    recordExit .baseException n.source
    return .unchanged id
  | .builtinRange =>
    let result ← foldBuiltin id Signature.range
    unless result.isChanged do recordExit .baseException n.source
    return result
  | .importModule =>
    match n.payload with
    | .moduleImport spec => computeImportModule id spec n.source
    | _ => return .unchanged id
  | .importName =>
    match n.payload with
    | .importName name _ => computeImportName id name n.source
    | _ => return .unchanged id
  | .importModuleNameHardMaybeExists =>
    recordExit .attributeError n.source
    return .unchanged id
  | _ =>
    if n.capabilities.mayRaise then recordExit .baseException n.source
    return .unchanged id

end ReplaceM

end Specializer
