import Specializer.Version

/-!
# Future features

The features a module can enable ahead of its version.
-/

namespace Specializer

/-- A set of future features. -/
structure FutureFlags where
  nestedScopes : Bool := false
  generators : Bool := false
  division : Bool := false
  absoluteImport : Bool := false
  withStatement : Bool := false
  printFunction : Bool := false
  unicodeLiterals : Bool := false
  barryAsFlufl : Bool := false
  generatorStop : Bool := false
  annotations : Bool := false
  deriving DecidableEq, Repr, Inhabited

/-- What a feature name stands for. -/
inductive FutureFeature where
  | known (flag : FutureFlags)
  /-- The feature that will never come. -/
  | notAChance
  | unknown
  deriving DecidableEq, Repr

namespace FutureFlags

/-- The features in order, each with its name. -/
def flags (f : FutureFlags) : List (String × Bool) :=
  [("NESTED_SCOPES", f.nestedScopes), ("GENERATORS", f.generators), ("DIVISION", f.division),
    ("ABSOLUTE_IMPORT", f.absoluteImport), ("WITH_STATEMENT", f.withStatement),
    ("PRINT_FUNCTION", f.printFunction), ("UNICODE_LITERALS", f.unicodeLiterals),
    ("BARRY_AS_FLUFL", f.barryAsFlufl), ("GENERATOR_STOP", f.generatorStop), ("ANNOTATIONS", f.annotations)]

/-- The names of the features in the set. -/
def names (f : FutureFlags) : List String := (f.flags.filter (·.2)).map (·.1)

/-- The set as a number, the first feature in the lowest bit. -/
def bits (f : FutureFlags) : Nat := f.flags.foldr (fun flag n => 2 * n + flag.2.toNat) 0

/-- The features in either set. -/
def union (a b : FutureFlags) : FutureFlags :=
  { nestedScopes := a.nestedScopes || b.nestedScopes
    generators := a.generators || b.generators
    division := a.division || b.division
    absoluteImport := a.absoluteImport || b.absoluteImport
    withStatement := a.withStatement || b.withStatement
    printFunction := a.printFunction || b.printFunction
    unicodeLiterals := a.unicodeLiterals || b.unicodeLiterals
    barryAsFlufl := a.barryAsFlufl || b.barryAsFlufl
    generatorStop := a.generatorStop || b.generatorStop
    annotations := a.annotations || b.annotations }

/-- The feature with a given name. -/
def lookup : String → FutureFeature
  | "nested_scopes" => .known { nestedScopes := true }
  | "generators" => .known { generators := true }
  | "division" => .known { division := true }
  | "absolute_import" => .known { absoluteImport := true }
  | "with_statement" => .known { withStatement := true }
  | "print_function" => .known { printFunction := true }
  | "unicode_literals" => .known { unicodeLiterals := true }
  | "barry_as_FLUFL" => .known { barryAsFlufl := true }
  | "generator_stop" => .known { generatorStop := true }
  | "annotations" => .known { annotations := true }
  | "braces" => .notAChance
  | _ => .unknown

/-- Whether imports without dots are absolute. -/
def importsAbsolutely (f : FutureFlags) (version : Version) : Bool := version.isPython3 || f.absoluteImport

end FutureFlags

end Specializer
