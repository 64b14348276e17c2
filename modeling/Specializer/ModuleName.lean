/-!
# Module names

Dotted module names such as `os.path`, the resolution of relative imports against a package, and the outcome of
looking a module up.
-/

namespace Specializer

/-- A dotted module name. Any text is one; empty components are skipped where components are listed. -/
structure ModuleName where
  text : String
  deriving DecidableEq, Repr, Inhabited

namespace ModuleName

/-- The parts between the dots, empty ones included. -/
def splitDots (cs : List Char) : List (List Char) :=
  match cs with
  | [] => [[]]
  | '.' :: rest => [] :: splitDots rest
  | c :: rest =>
    match splitDots rest with
    | part :: parts => (c :: part) :: parts
    | [] => [[c]]

/-- Names are ordered by code points, which is the order of their UTF-8 bytes. -/
instance : Ord ModuleName where
  compare a b := compare a.text b.text

/-- Whether the name is empty. -/
def isEmpty (m : ModuleName) : Bool := m.text.isEmpty

/-- The non-empty parts between the dots. -/
def components (m : ModuleName) : List String :=
  ((splitDots m.text.toList).filter (!·.isEmpty)).map String.ofList

/-- The part in front of the first dot. -/
def topLevel (m : ModuleName) : String := String.ofList (m.text.toList.takeWhile (· != '.'))

/-- The part in front of the last dot, `none` for a name without dots. -/
def package? (m : ModuleName) : Option ModuleName :=
  match m.text.toList.reverse.dropWhile (· != '.') with
  | [] => none
  | _ :: package => some ⟨String.ofList package.reverse⟩

/-- A name inside a package. An empty name on either side gives the other one. -/
def child (m : ModuleName) (name : String) : ModuleName :=
  if m.isEmpty then ⟨name⟩
  else if name.isEmpty then m
  else ⟨m.text ++ "." ++ name⟩

/-- Whether the name is `other` or a module inside it. -/
def isBelowOrSame (m other : ModuleName) : Bool :=
  m == other || (other.text.toList ++ ['.']).isPrefixOf m.text.toList

/-- The package that many levels further up. -/
def ancestor? (m : ModuleName) : Nat → Option ModuleName
  | 0 => some m
  | n + 1 => match m.package? with
    | none => none
    | some package => package.ancestor? n

/-- The absolute name of an import with `level` leading dots inside a package: level one is the package itself, and
each further level goes one package up. `none` when that leads out of the top level. -/
def relativeTo? (package : Option ModuleName) (level : UInt64) (name : String) : Option ModuleName :=
  if level = 0 then some ⟨name⟩
  else match package with
    | none => none
    | some package => (package.ancestor? (level.toNat - 1)).map (·.child name)

end ModuleName

/-- The outcome of looking a module up. Paths are texts with `/` between their parts. -/
inductive ModuleFinding where
  /-- Part of the interpreter, without a file. -/
  | builtIn
  /-- A module file or the initialisation file of a package. -/
  | found (path : String)
  /-- The directory of a namespace package. -/
  | namespacePackage (path : String)
  | notFound
  deriving DecidableEq, Repr, Inhabited

namespace ModuleFinding

/-- Whether the module exists. -/
def isFound : ModuleFinding → Bool
  | .notFound => false
  | _ => true

/-- The file or directory of the module. -/
def path? : ModuleFinding → Option String
  | .found path | .namespacePackage path => some path
  | _ => none

end ModuleFinding

end Specializer
