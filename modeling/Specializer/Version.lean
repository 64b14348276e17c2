/-!
# Language versions

The version a module is compiled for. It decides which names are builtins, which exceptions exist, and a few
details of how values are written.
-/

namespace Specializer

/-- The language version of the compiled source. -/
inductive Version where
  | python2
  | python3
  deriving DecidableEq, Repr, Inhabited

namespace Version

/-- Whether this is the newer of the two versions. -/
def isPython3 : Version → Bool
  | .python3 => true
  | .python2 => false

/-- The spelling of a version in configuration files. -/
def name : Version → String
  | .python2 => "python2"
  | .python3 => "python3"

/-- The version with a given spelling; the spelling is exact. -/
def ofName? : String → Option Version
  | "python2" => some .python2
  | "python3" => some .python3
  | _ => none

/-- The level of an import whose source gives none: `-1` tries the package first, `0` is absolute. -/
def defaultImportLevel : Version → Int64
  | .python2 => -1
  | .python3 => 0

theorem ofName?_name (v : Version) : ofName? v.name = some v := by
  cases v <;> rfl

end Version

end Specializer
