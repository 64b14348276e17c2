import Specializer.ExceptionKind

/-!
# Raised exceptions

An exception a program is known to raise, with its message.
-/

namespace Specializer

/-- An exception with its message. -/
structure RaisedException where
  kind : ExceptionKind
  message : String
  deriving DecidableEq, Repr, Inhabited

/-- The text of an exception, as in `KeyError: message`. -/
def RaisedException.render (e : RaisedException) : String := e.kind.name ++ ": " ++ e.message

end Specializer
