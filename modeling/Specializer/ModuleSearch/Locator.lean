import Specializer.ModuleName
import Specializer.ModuleSearch.FileSystem
import Specializer.Version

/-!
# Locating modules

A locator answers for the imports of a compilation. The two at hand answer for absolute names, one from the modules
built into the interpreter and the directories of a search path, the other from a fixed table; both resolve relative
names against the importing package in the same way.
-/

namespace Specializer

/-- Answers where the module of an import is: the name, the importing package and the level of the import give the
absolute name it stands for and what is there. -/
structure Locator where
  locate : ModuleName → Option ModuleName → Int64 → ModuleName × ModuleFinding

namespace Locator

/-- Locates an import with a level from inside a package, when `probe` answers for absolute names. Level zero is
absolute and a positive level counts leading dots; a negative level tries the package first and then the top. -/
def resolve (probe : ModuleName → ModuleFinding) (name : ModuleName) (package : Option ModuleName) (level : Int64) :
    ModuleName × ModuleFinding :=
  if level < 0 then
    let fromTop := (name, probe name)
    match package with
    | none => fromTop
    | some package =>
      let relative := package.child name.text
      let finding := probe relative
      if finding.isFound then (relative, finding) else fromTop
  else
    match ModuleName.relativeTo? package level.toUInt64 name.text with
    | some full => if full.isEmpty then (name, .notFound) else (full, probe full)
    | none => (name, .notFound)

/-- The locator that resolves relative names and asks `probe` for absolute ones. -/
def ofProbe (probe : ModuleName → ModuleFinding) : Locator := ⟨resolve probe⟩

/-- What a table says about a module; modules that it does not list do not exist. -/
def lookup (modules : List (ModuleName × ModuleFinding)) (name : ModuleName) : ModuleFinding :=
  ((modules.find? fun entry => entry.1 == name).map (·.2)).getD .notFound

/-- The locator of a table of modules. -/
def ofTable (modules : List (ModuleName × ModuleFinding)) : Locator := ofProbe (lookup modules)

/-- The modules built into the interpreter. `__future__` has a file, but its content is fixed. -/
def builtInModules : Version → List String
  | .python3 =>
    ["builtins", "sys", "_imp", "_io", "_thread", "_warnings", "_weakref", "_codecs", "_signal", "_sre", "_stat",
      "_string", "atexit", "errno", "gc", "itertools", "marshal", "posix", "pwd", "time", "__future__"]
  | .python2 =>
    ["__builtin__", "sys", "imp", "_codecs", "_sre", "_warnings", "_weakref", "errno", "exceptions", "gc", "marshal",
      "posix", "pwd", "signal", "thread", "zipimport", "__future__"]

section Search

variable (fs : FileSystem) (version : Version)

/-- The initialisation file of a package directory. -/
def initFile (directory : String) : String := FilePath.join directory "__init__.py"

/-- Whether a directory counts as a package on the way to a module: it holds an initialisation file or, in the newer
version, is a directory at all. -/
def isPackage (directory : String) : Bool :=
  fs.isFile (initFile directory) || (version.isPython3 && fs.isDirectory directory)

/-- Looks for the module with the given components below a directory: a package with an initialisation file, then a
module file, then a namespace package. -/
def searchBelow (directory : String) : List String → ModuleFinding
  | [] => .notFound
  | [last] =>
    let package := FilePath.join directory last
    let file := FilePath.join directory (last ++ ".py")
    if fs.isFile (initFile package) then .found (initFile package)
    else if fs.isFile file then .found file
    else if version.isPython3 && fs.isDirectory package then .namespacePackage package
    else .notFound
  | component :: rest =>
    let package := FilePath.join directory component
    if isPackage fs version package then searchBelow package rest else .notFound

/-- Looks for a module along a search path. A module found anywhere wins over a namespace package found before it;
`pending` is the first namespace package so far. -/
def searchAlong (components : List String) (pending : Option String) : List String → ModuleFinding
  | [] => match pending with
    | some path => .namespacePackage path
    | none => .notFound
  | directory :: rest =>
    match searchBelow fs version directory components with
    | .namespacePackage path => searchAlong components (pending.or (some path)) rest
    | .notFound => searchAlong components pending rest
    | finding => finding

/-- Looks for a module under its absolute name: it is built in, or somewhere along the search path. -/
def find (searchPaths : List String) (name : ModuleName) : ModuleFinding :=
  if (builtInModules version).contains name.text then .builtIn
  else searchAlong fs version name.components none searchPaths

/-- The locator of an interpreter with a search path. -/
def standard (searchPaths : List String) : Locator := ofProbe (find fs version searchPaths)

end Search

end Locator

end Specializer
