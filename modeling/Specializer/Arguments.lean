/-!
# Bound arguments

The arguments of a call after they have been assigned to the parameters of the callee.
-/

namespace Specializer

/-- Arguments by parameter. -/
structure BoundArguments (α : Type) where
  /-- One entry per parameter, `none` where none was given. -/
  values : List (Option α)
  /-- The positional arguments beyond the parameters. -/
  starList : List α := []
  /-- The keyword arguments that name no parameter. -/
  starDict : List (String × α) := []
  deriving DecidableEq, Repr

namespace BoundArguments

variable {α : Type}

/-- The argument of a parameter. -/
def get? (args : BoundArguments α) (index : Nat) : Option α := args.values[index]?.join

/-- How many parameters received an argument. -/
def given (args : BoundArguments α) : Nat := args.values.countP Option.isSome

end BoundArguments

end Specializer
