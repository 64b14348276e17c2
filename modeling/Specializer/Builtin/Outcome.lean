import Specializer.Arguments
import Specializer.Constant.Render
import Specializer.RaisedException

/-!
# Outcomes of builtins

Evaluating a builtin over constants gives the value it returns or the exception it raises, with the same type and
message, or declines when neither can be told faithfully.
-/

namespace Specializer

/-- Why an evaluation gave no value. -/
inductive Fault where
  | raise (exception : RaisedException)
  | decline
  deriving DecidableEq, Repr

/-- The value of a builtin call, or why there is none. -/
abbrev Outcome := Except Fault Constant

/-- The evaluation of a builtin. -/
abbrev Evaluator := BoundArguments Constant → Version → Outcome

namespace Fault

/-- A `TypeError`. -/
def typeError (message : String) : Fault := .raise ⟨.typeError, message⟩

/-- A `ValueError`. -/
def valueError (message : String) : Fault := .raise ⟨.valueError, message⟩

/-- The error for a value that is no integer where one is needed. -/
def notAnInteger (version : Version) (value : Constant) : Fault :=
  match version with
  | .python3 => typeError s!"'{value.typeName version}' object cannot be interpreted as an integer"
  | .python2 =>
    if value.isFloat then typeError "integer argument expected, got float" else typeError "an integer is required"

/-- The error for a value that cannot be iterated over. -/
def notIterable (version : Version) (value : Constant) : Fault :=
  typeError s!"'{value.typeName version}' object is not iterable"

/-- The error for a value that cannot be a key. -/
def unhashable (version : Version) (value : Constant) : Fault :=
  typeError s!"unhashable type: '{value.typeName version}'"

end Fault

/-- The argument of a parameter that has to be there. -/
def BoundArguments.getOrDecline (args : BoundArguments Constant) (index : Nat) : Except Fault Constant :=
  match args.get? index with
  | some value => .ok value
  | none => .error .decline

end Specializer
