import Specializer.Imports.Hard

/-!
# Binding names

The variable a scope binds a name to. Inside a class, private names are mangled with the name of the class.
-/

namespace Specializer.Binding

/-- A name as a class sees it: two underscores in front, not two at the end and no dot make it private, and it gets the
name of the class without its leading underscores. A class of nothing but underscores mangles no names. -/
def mangle (name className : String) : String :=
  let chars := name.toList
  let stem := className.toList.dropWhile (· == '_')
  let isPrivate := ['_', '_'].isPrefixOf chars && !(['_', '_'].isSuffixOf chars) && !chars.contains '.'
  if isPrivate && !stem.isEmpty then "_" ++ String.ofList stem ++ name else name

/-- The name and the kind of the variable a scope binds a name to. -/
def target (scope : Node) (name : String) : String × VariableKind :=
  match scope.kind, scope.payload with
  | .module, _ => (name, .module)
  | .classBody, .scope className => (mangle name className, .localScope)
  | .classBody, _ => (mangle name "", .localScope)
  | _, _ => (name, .localScope)

/-- The variable a scope binds a name to, declared on first use. -/
def variableFor (provider : NodeId) (name : String) : TreeM VariableId := do
  let scope ← TreeM.query (·.node provider)
  let (name, kind) := target scope name
  let t ← get
  match t.variableList.find? fun (_, v) => v.owner == provider && v.name == name && v.kind == kind with
  | some (id, _) => return id
  | none => TreeM.declareVariable provider name kind

end Specializer.Binding
