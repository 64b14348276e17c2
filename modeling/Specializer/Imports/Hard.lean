import Specializer.Diagnostic
import Specializer.ModuleSearch.Locator
import Specializer.Tree.Make

/-!
# Hard imports

Imports of modules that are known to exist, and of names inside them. Evaluating one never fails to find the module.
-/

namespace Specializer

/-- Computations on a tree within a compilation. -/
abbrev CompileM := EStateM CompileError Tree

namespace CompileM

/-- A tree operation within a compilation. -/
def onTree {α : Type} (action : TreeM α) : CompileM α := fun t =>
  match action t with
  | .ok a t => .ok a t
  | .error e t => .error (.tree e) t

end CompileM

namespace HardImport

/-- The modules whose import is hard. -/
def modules : List String := ["__future__", "sys", "os", "types", "functools", "importlib", "site", "ctypes"]

/-- The names known to exist in `__future__`. -/
def futureNames : List String :=
  ["nested_scopes", "generators", "division", "absolute_import", "with_statement", "print_function",
    "unicode_literals", "barry_as_FLUFL", "generator_stop", "annotations", "all_feature_names"]

/-- The names known to exist in `sys`. -/
def sysNames : Version → List String
  | .python3 =>
    ["argv", "byteorder", "exc_info", "executable", "exit", "flags", "getrecursionlimit", "maxsize", "modules", "path",
      "platform", "prefix", "stderr", "stdin", "stdout", "version", "version_info"]
  | .python2 =>
    ["argv", "byteorder", "exc_info", "executable", "exit", "flags", "getrecursionlimit", "maxsize", "modules", "path",
      "platform", "prefix", "stderr", "stdin", "stdout", "version", "version_info", "maxint"]

/-- The names known to exist in `os`. -/
def osNames : List String := ["environ", "getcwd", "listdir", "name", "path", "sep", "stat", "unlink"]

/-- Whether the import of a module is hard. -/
def isHardModule (module : ModuleName) : Bool := modules.contains module.text

/-- Whether a name is known to exist in a hard module. -/
def isKnownName (version : Version) (module : ModuleName) (name : String) : Bool :=
  match module.text with
  | "__future__" => futureNames.contains name
  | "sys" => (sysNames version).contains name
  | "os" => osNames.contains name
  | _ => false

/-- Where a hard module is; it has to be somewhere. -/
def locate (locator : Locator) (module : ModuleName) : CompileM ModuleFinding := do
  let finding := (locator.locate module none 0).2
  unless finding.isFound do throw (.internal s!"hard import of '{module.text}' cannot be located")
  return finding

/-- The import of a hard module. -/
def makeModule (locator : Locator) (module : ModuleName) (source : SourceRef) : CompileM NodeId := do
  let finding ← locate locator module
  CompileM.onTree (TreeM.newNode .importModuleHard source (.hardImport ⟨module, none, finding⟩) [])

/-- The import of a name from a hard module, whether or not the name is known to exist. -/
def makeName (locator : Locator) (version : Version) (module : ModuleName) (name : String) (source : SourceRef) :
    CompileM NodeId := do
  let finding ← locate locator module
  let kind := if isKnownName version module name then .importModuleNameHardExists else .importModuleNameHardMaybeExists
  CompileM.onTree (TreeM.newNode kind source (.hardImport ⟨module, some name, finding⟩) [])

end HardImport

end Specializer
