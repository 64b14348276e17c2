import Specializer.DispatchTable
import Specializer.Replacement.Compute

/-!
# Folding builtin operations

Builtin operations whose operands are all constant are computed ahead. The type of a constant becomes a reference to
the builtin type, and an `__import__` with constant arguments becomes a static import.
-/

namespace Specializer

namespace ReplaceM

/-- Evaluates an operation with the signature behind its key. -/
def foldByKey (key : String) (id : NodeId) : ReplaceM Computed :=
  match Signature.ofKey? key with
  | some signature => foldBuiltin id signature
  | none => return .unchanged id

/-- The type of a constant, if it is a builtin by name. -/
def foldType (id : NodeId) : ReplaceM Computed := do
  let some value := (← ask (·.child id "value")).bind (← tree).constant? | return .unchanged id
  if let .none := value then return .unchanged id
  let typeName := value.typeName (← version)
  if !BuiltinName.isBuiltin (← version) typeName then return .unchanged id
  let source ← ask (·.source id)
  let reference ← onTree (TreeM.makeBuiltinRef typeName source)
  return .changed reference { newBuiltin := true }
    s!"Replaced predictable type lookup with builtin type '{typeName}'."

/-- An operand of an import: missing, constant, or unknown until the program runs. -/
inductive ImportOperand where
  | missing
  | constant (value : Constant)
  | unknown

/-- Reads an operand of an import. -/
def importOperand (id : NodeId) (slot : String) : ReplaceM ImportOperand := do
  match ← ask (·.child id slot) with
  | none => return .missing
  | some operand => match (← tree).constant? operand with
    | some value => return .constant value
    | none => return .unknown

/-- The names an import asks for. -/
def importedNames? : ImportOperand → Option (List String)
  | .missing | .constant .none => some []
  | .constant (.tuple items) | .constant (.list items) => items.mapM Constant.text?
  | _ => none

/-- The level of an import. -/
def importLevel? (version : Version) : ImportOperand → Option Int64
  | .missing => some version.defaultImportLevel
  | .constant value => value.asInt?
  | .unknown => none

/-- Whether an operand is there and may have side effects. -/
def hasSideEffects (id : NodeId) (slot : String) : ReplaceM Bool := do
  match ← ask (·.child id slot) with
  | none => return false
  | some operand => ask (·.mayHaveSideEffects operand)

/-- An `__import__` with constant arguments as a static import. -/
def foldImport (id : NodeId) : ReplaceM Computed := do
  if ← hasSideEffects id "globals" then return .unchanged id
  if ← hasSideEffects id "locals" then return .unchanged id
  let .constant (.str name) ← importOperand id "name" | return .unchanged id
  let some names := importedNames? (← importOperand id "fromlist") | return .unchanged id
  let some level := importLevel? (← version) (← importOperand id "level") | return .unchanged id
  let source ← ask (·.source id)
  let imported ← onTree (TreeM.newNode .importModule source (.moduleImport ⟨⟨name⟩, names, level⟩) [])
  return .changed imported { newImport := true } s!"Replaced __import__ call with module import of '{name}'."

end ReplaceM

/-- Computes a builtin operation. -/
abbrev FoldHandler := NodeId → ReplaceM Computed

/-- The operations that are folded, by key. -/
def foldHandlers : DispatchTable String FoldHandler :=
  .ofList ([("type1", ReplaceM.foldType), ("range", ReplaceM.computeNode), ("import", ReplaceM.foldImport)] ++
    ["chr", "ord", "bin", "oct", "hex", "len", "tuple", "list", "dict", "float", "str", "bool", "int", "long"].map
      fun key => (key, ReplaceM.foldByKey key))

namespace ReplaceM

/-- Puts the outcome of a computation in the place of a node and says what changed. Returns the node now in its
place. -/
def applyComputed (id : NodeId) (result : Computed) : ReplaceM NodeId := do
  match result.change with
  | none => return id
  | some (tags, description) =>
    let source ← ask (·.source id)
    unless result.node = id do replaceNode id result.node
    signal tags source description
    return result.node

/-- Folds a builtin operation. Returns the node now in its place. -/
def foldOperation (id : NodeId) : ReplaceM NodeId := do
  let some key := (← ask (·.kind id)).builtinKey? | return id
  let some handler := foldHandlers.lookup? key | return id
  applyComputed id (← handler id)

end ReplaceM

end Specializer
