import Specializer.Imports.Binding
import Specializer.Imports.Future
import Specializer.Text.Lines

/-!
# Lowering import statements

Import statements become the nodes the optimizer works on:

- `import a.b` binds `a` to the imported package, and `import a.b as c` binds `c` to its attribute `b`;
- `from m import x` binds `x` to a name of the imported module, and several names share one temporary that is released
  afterwards;
- `from m import *` is a statement of its own;
- `from __future__ import f` enables a feature for the rest of the module and binds `f` to the feature.
-/

namespace Specializer

/-- A name with the name it is bound to. -/
structure ImportAlias where
  name : String
  asName : Option String := none
  deriving DecidableEq, Repr, Inhabited

/-- The name an alias binds. -/
def ImportAlias.target (a : ImportAlias) : String := a.asName.getD a.name

/-- What a `from` import asks for. -/
inductive ImportedNames where
  | names (aliases : List ImportAlias)
  | star
  deriving DecidableEq, Repr

/-- An import statement. -/
inductive ImportStatement where
  /-- As in `import a.b, c as d`. -/
  | modules (aliases : List ImportAlias)
  /-- As in `from ..module import names`, with the number of dots; `module` may be empty. -/
  | fromModule (module : String) (names : ImportedNames) (level : UInt64)
  deriving DecidableEq, Repr

/-- What is known about a module while its statements are lowered. -/
structure ModuleState where
  name : ModuleName
  file : String
  sourceLines : List String
  version : Version
  future : FutureFlags := {}
  /-- A statement other than a future import came before. -/
  statementsSeen : Bool := false
  /-- How many temporaries have been named. -/
  tempCount : Nat := 0
  deriving DecidableEq, Repr, Inhabited

namespace ModuleState

/-- The state before the first statement of a module. -/
def ofSource (name : ModuleName) (file source : String) (version : Version) : ModuleState :=
  { name, file, sourceLines := Text.lines source, version }

/-- Notes a statement that is no future import. -/
def noteStatement (m : ModuleState) : ModuleState := { m with statementsSeen := true }

/-- The text of a source line, counted from one. -/
def sourceLine? (m : ModuleState) (line : UInt32) : Option String :=
  match line.toNat with
  | 0 => none
  | index + 1 => m.sourceLines[index]?

/-- A fault of the source at a place, with the line it stands on. -/
def syntaxError (m : ModuleState) (reason : String) (source : SourceRef) : CompileError :=
  .malformed
    { reason
      file := some m.file
      line := some source.line
      column := some (source.column + 1)
      sourceLine := m.sourceLine? source.line }

/-- The level of imports without dots. -/
def defaultLevel (m : ModuleState) : Int64 := if m.future.importsAbsolutely m.version then 0 else -1

end ModuleState

/-- A module whose statements are being lowered into a tree. -/
structure Lowering where
  module : ModuleState
  tree : Tree := {}
  deriving Inhabited

/-- Computations that lower statements. -/
abbrev LoweringM := ReaderT Locator (EStateM CompileError Lowering)

namespace LoweringM

/-- A compilation step on the tree. -/
def onCompile {α : Type} (action : CompileM α) : LoweringM α := fun _ s =>
  match action s.tree with
  | .ok a tree => .ok a { s with tree }
  | .error e tree => .error e { s with tree }

/-- A tree operation. -/
def onTree {α : Type} (action : TreeM α) : LoweringM α := onCompile (CompileM.onTree action)

/-- A fault of the source at a place. -/
def reject {α : Type} (reason : String) (source : SourceRef) : LoweringM α := do
  throw ((← get).module.syntaxError reason source)

/-- Whether a scope is a module. -/
def isModule (provider : NodeId) : LoweringM Bool := do
  return (← onTree (TreeM.query (·.kind provider))) = .module

/-- The import of a module. -/
def makeImportModule (module : ModuleName) (names : List String) (level : Int64) (source : SourceRef) :
    LoweringM NodeId :=
  onTree (TreeM.newNode .importModule source (.moduleImport ⟨module, names, level⟩) [])

/-- The import of a name from an imported module. -/
def makeImportName (module : NodeId) (name : String) (level : Int64) (source : SourceRef) : LoweringM NodeId :=
  onTree (TreeM.newNode .importName source (.importName name level) [.filled module])

/-- Binds a name of a scope to a value. -/
def bind (provider : NodeId) (name : String) (value : NodeId) (source : SourceRef) : LoweringM NodeId := do
  let id ← onTree (Binding.variableFor provider name)
  onTree (TreeM.makeAssignment id value source)

/-- A single statement stays as it is, any other number becomes a sequence. -/
def makeSequence (statements : List NodeId) (source : SourceRef) : LoweringM NodeId :=
  match statements with
  | [statement] => pure statement
  | _ => onTree (TreeM.makeStatements statements source)

/-- The attribute lookups that lead from a package to one of its modules. -/
def makeAttributeChain (source : SourceRef) : NodeId → List String → LoweringM NodeId
  | value, [] => pure value
  | value, name :: rest => do makeAttributeChain source (← onTree (TreeM.makeAttributeLookup value name source)) rest

/-- One module of an `import` statement. -/
def lowerModule (provider : NodeId) (source : SourceRef) (level : Int64) (a : ImportAlias) : LoweringM NodeId := do
  let module : ModuleName := ⟨a.name⟩
  let imported ← makeImportModule module [] level source
  match a.asName with
  | none => bind provider module.topLevel imported source
  | some asName => bind provider asName (← makeAttributeChain source imported (module.components.drop 1)) source

/-- An `import` statement. -/
def lowerModules (provider : NodeId) (aliases : List ImportAlias) (source : SourceRef) : LoweringM NodeId := do
  let level := (← get).module.defaultLevel
  makeSequence (← aliases.mapM (lowerModule provider source level)) source

/-- The name of a new temporary. -/
def freshTempName : LoweringM String := do
  modify fun s => { s with module := { s.module with tempCount := s.module.tempCount + 1 } }
  let count := (← get).module.tempCount
  return s!"tmp_import_from_{count}"

/-- One name of a `from` import that reads the module from a temporary. -/
def lowerSharedName (provider : NodeId) (temp : VariableId) (level : Int64) (source : SourceRef) (a : ImportAlias) :
    LoweringM NodeId := do
  let module ← onTree (TreeM.makeVariableRef temp source)
  let value ← makeImportName module a.name level source
  bind provider a.target value source

/-- The names of a `from` import: one name reads the imported module directly, any other number shares a temporary. -/
def lowerNames (provider : NodeId) (imported : NodeId) (aliases : List ImportAlias) (level : Int64)
    (source : SourceRef) : LoweringM NodeId := do
  match aliases with
  | [a] => bind provider a.target (← makeImportName imported a.name level source) source
  | _ =>
    let temp ← onTree (TreeM.declareVariable provider (← freshTempName) .temp)
    let store ← onTree (TreeM.makeAssignment temp imported source)
    let bindings ← aliases.mapM (lowerSharedName provider temp level source)
    let release ← onTree (TreeM.makeRelease temp source)
    makeSequence (store :: bindings ++ [release]) source

/-- A `from` import. The newer version allows a star only in modules. -/
def lowerFrom (provider : NodeId) (module : String) (names : ImportedNames) (level : UInt64) (source : SourceRef) :
    LoweringM NodeId := do
  let m := (← get).module
  let level := if level = 0 then m.defaultLevel else level.toInt64
  match names with
  | .star =>
    if m.version.isPython3 then
      unless ← isModule provider do reject "import * only allowed at module level" source
    let imported ← makeImportModule ⟨module⟩ ["*"] level source
    onTree (TreeM.newNode .statementImportStar source .none [.filled imported])
  | .names aliases =>
    let imported ← makeImportModule ⟨module⟩ (aliases.map (·.name)) level source
    lowerNames provider imported aliases level source

/-- Enables the features asked for, one after the other. -/
def enableFeatures (source : SourceRef) : List ImportAlias → LoweringM Unit
  | [] => pure ()
  | a :: rest => do
    match FutureFlags.lookup a.name with
    | .known flag =>
      modify fun s => { s with module := { s.module with future := s.module.future.union flag } }
      enableFeatures source rest
    | .notAChance => reject "not a chance" source
    | .unknown => reject s!"future feature {a.name} is not defined" source

/-- Binds the name of a future feature. -/
def lowerFeature (provider : NodeId) (source : SourceRef) (a : ImportAlias) : LoweringM NodeId := do
  let version := (← get).module.version
  let value ← onCompile (HardImport.makeName (← read) version ⟨"__future__"⟩ a.name source)
  bind provider a.target value source

/-- A future import, which only future imports may precede. -/
def lowerFuture (provider : NodeId) (names : ImportedNames) (source : SourceRef) : LoweringM NodeId := do
  let early ← if (← get).module.statementsSeen then pure false else isModule provider
  unless early do reject "from __future__ imports must occur at the beginning of the file" source
  match names with
  | .star => reject "future feature * is not defined" source
  | .names aliases =>
    enableFeatures source aliases
    makeSequence (← aliases.mapM (lowerFeature provider source)) source

/-- Lowers an import statement of a scope. The result is one statement, a sequence where it binds several names. -/
def lowerImport (provider : NodeId) (statement : ImportStatement) (source : SourceRef) : LoweringM NodeId := do
  match statement with
  | .fromModule module names level =>
    if module = "__future__" ∧ level = 0 then lowerFuture provider names source
    else
      modify fun s => { s with module := s.module.noteStatement }
      lowerFrom provider module names level source
  | .modules aliases =>
    modify fun s => { s with module := s.module.noteStatement }
    lowerModules provider aliases source

end LoweringM

end Specializer
