/-!
# Capabilities

What a node is and what evaluating it may do. `mayRaise` and `sideEffects` speak of the node itself; a tree combines
them with those of its operands.
-/

namespace Specializer

/-- A set of properties of a node. -/
structure Capabilities where
  /-- The node has a value. -/
  expression : Bool := false
  /-- The node is a statement. -/
  statement : Bool := false
  /-- The node is a builtin operation or reference. -/
  builtin : Bool := false
  /-- The node is a constant. -/
  constant : Bool := false
  /-- The node may raise when evaluated itself, its operands not counted. -/
  mayRaise : Bool := false
  /-- The node may have side effects when evaluated itself. -/
  sideEffects : Bool := false
  /-- The node raises whenever it is evaluated. -/
  alwaysRaises : Bool := false
  /-- The node owns variables. -/
  scope : Bool := false
  /-- The node imports a module or a name. -/
  imports : Bool := false
  deriving DecidableEq, Repr, Inhabited

namespace Capabilities

/-- The capabilities of builtin operations that nothing more is known about. -/
def operation : Capabilities := { expression := true, builtin := true, mayRaise := true, sideEffects := true }

/-- The capabilities of an import that is known to run no code. -/
def quietImport : Capabilities := { expression := true, imports := true }

/-- The properties in order, each with its name. -/
def flags (c : Capabilities) : List (String × Bool) :=
  [("EXPRESSION", c.expression),
    ("STATEMENT", c.statement),
    ("BUILTIN", c.builtin),
    ("CONSTANT", c.constant),
    ("MAY_RAISE", c.mayRaise),
    ("SIDE_EFFECTS", c.sideEffects),
    ("ALWAYS_RAISES", c.alwaysRaises),
    ("SCOPE", c.scope),
    ("IMPORT", c.imports)]

/-- The names of the properties that hold. -/
def names (c : Capabilities) : List String := (c.flags.filter (·.2)).map (·.1)

/-- The set as a number, the first property in the lowest bit. -/
def bits (c : Capabilities) : Nat := c.flags.foldr (fun flag n => 2 * n + flag.2.toNat) 0

/-- The set of the properties with the given names. -/
def ofNames (names : List String) : Capabilities :=
  { expression := names.contains "EXPRESSION"
    statement := names.contains "STATEMENT"
    builtin := names.contains "BUILTIN"
    constant := names.contains "CONSTANT"
    mayRaise := names.contains "MAY_RAISE"
    sideEffects := names.contains "SIDE_EFFECTS"
    alwaysRaises := names.contains "ALWAYS_RAISES"
    scope := names.contains "SCOPE"
    imports := names.contains "IMPORT" }

end Capabilities

end Specializer
