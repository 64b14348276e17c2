import Specializer.Tree.Node

/-!
# Traces

What is learnt about control flow while a unit, a module body or a function body, is walked: through which exceptions
it may be left, and whether the current point is ever passed.
-/

namespace Specializer

/-- A point where control may leave a unit through an exception. -/
structure ExceptionExit where
  kind : ExceptionKind
  source : SourceRef
  deriving DecidableEq, Repr, Inhabited

/-- The facts about one unit. -/
structure Trace where
  unit : NodeId
  name : String
  version : Version
  /-- The exits in the order they were met. -/
  exits : List ExceptionExit := []
  /-- Control never gets past the current point. -/
  abortive : Bool := false
  deriving DecidableEq, Repr, Inhabited

namespace Trace

/-- Control may leave here through an exception. -/
def recordExit (t : Trace) (kind : ExceptionKind) (source : SourceRef) : Trace :=
  { t with exits := t.exits ++ [⟨kind, source⟩] }

/-- Control ends here. -/
def abort (t : Trace) : Trace := { t with abortive := true }

/-- Whether a handler for `kind` may catch some recorded exit. -/
def mayExitVia (t : Trace) (kind : ExceptionKind) : Bool :=
  t.exits.any fun exit => exit.kind.isSubclassOf t.version kind || kind.isSubclassOf t.version exit.kind

end Trace

end Specializer
