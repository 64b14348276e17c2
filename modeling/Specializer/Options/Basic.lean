import Specializer.Version

/-!
# Options

What a compilation can be told: the language version, which optional replacements run, how many passes are allowed, and
where modules are searched.
-/

namespace Specializer

/-- The options of a compilation. -/
structure Options where
  version : Version := .python3
  /-- Specialize the calls of builtins that do not depend on the frame. -/
  builtinReplacement : Bool := true
  /-- Replace the names of builtin exceptions and of `None`, `True` and `False`. -/
  exceptionNameReplacement : Bool := true
  constantFolding : Bool := true
  /-- The number of passes after which a tree that still changes is an error. -/
  maxPasses : Nat := 64
  searchPaths : List String := []
  deriving DecidableEq, Repr, Inhabited

/-- Adds a directory at the end of the search path. -/
def Options.addSearchPath (o : Options) (path : String) : Options := { o with searchPaths := o.searchPaths ++ [path] }

end Specializer
