/-!
# Source references

Every node carries the place in the source it stems from. References are ordered by file, then line, then column;
file names compare by code points, which is the order of their UTF-8 bytes.
-/

namespace Specializer

/-- A position in a source file. Lines count from one, columns from zero. -/
structure SourceRef where
  file : String
  line : UInt32
  column : UInt32
  deriving DecidableEq, Repr, Inhabited

namespace SourceRef

/-- The reference of nodes that stand nowhere in the source. -/
def internal : SourceRef := ⟨"<internal>", 0, 0⟩

/-- Same file and line, another column. -/
def atColumn (r : SourceRef) (column : UInt32) : SourceRef := { r with column }

/-- The text `file:line:column`. -/
def render (r : SourceRef) : String :=
  r.file ++ ":" ++ toString r.line.toNat ++ ":" ++ toString r.column.toNat

/-- Whether `a` stands no later than `b`: by file, then line, then column. -/
def le (a b : SourceRef) : Bool :=
  if a.file = b.file then
    if a.line = b.line then a.column ≤ b.column else a.line < b.line
  else a.file < b.file

/-- References in order. -/
def sort (refs : List SourceRef) : List SourceRef := refs.mergeSort le

end SourceRef

end Specializer
