import Specializer.Version

/-!
# Builtin exceptions

The builtin exception types, the versions they exist in, and their hierarchy. The hierarchy depends on the version:
the older one has `StandardError` between `Exception` and most errors, and puts `IOError` and `OSError` below
`EnvironmentError`; the newer one puts `IOError` and `EnvironmentError` below `OSError`.
-/

namespace Specializer

/-- A builtin exception type. -/
inductive ExceptionKind where
  | baseException
  | systemExit
  | keyboardInterrupt
  | generatorExit
  | exception
  | stopIteration
  | stopAsyncIteration
  | standardError
  | arithmeticError
  | floatingPointError
  | overflowError
  | zeroDivisionError
  | assertionError
  | attributeError
  | bufferError
  | eofError
  | importError
  | moduleNotFoundError
  | lookupError
  | indexError
  | keyError
  | memoryError
  | nameError
  | unboundLocalError
  | osError
  | environmentError
  | ioError
  | blockingIOError
  | childProcessError
  | connectionError
  | brokenPipeError
  | fileExistsError
  | fileNotFoundError
  | interruptedError
  | isADirectoryError
  | notADirectoryError
  | permissionError
  | processLookupError
  | timeoutError
  | referenceError
  | runtimeError
  | notImplementedError
  | recursionError
  | syntaxError
  | indentationError
  | tabError
  | systemError
  | typeError
  | valueError
  | unicodeError
  | unicodeDecodeError
  | unicodeEncodeError
  | unicodeTranslateError
  | warning
  | deprecationWarning
  | pendingDeprecationWarning
  | runtimeWarning
  | syntaxWarning
  | userWarning
  | futureWarning
  | importWarning
  | unicodeWarning
  | bytesWarning
  | resourceWarning
  deriving DecidableEq, Repr, Inhabited

/-- The versions a builtin exists in. -/
inductive Availability where
  | both
  | onlyPython2
  | onlyPython3
  deriving DecidableEq, Repr

/-- Whether a version is among them. -/
def Availability.includes : Availability → Version → Bool
  | .both, _ => true
  | .onlyPython2, v => !v.isPython3
  | .onlyPython3, v => v.isPython3

namespace ExceptionKind

/-- Every exception type, in the order of the table. -/
def all : List ExceptionKind :=
  [.baseException, .systemExit, .keyboardInterrupt, .generatorExit, .exception, .stopIteration,
    .stopAsyncIteration, .standardError, .arithmeticError, .floatingPointError, .overflowError, .zeroDivisionError,
    .assertionError, .attributeError, .bufferError, .eofError, .importError, .moduleNotFoundError, .lookupError,
    .indexError, .keyError, .memoryError, .nameError, .unboundLocalError, .osError, .environmentError, .ioError,
    .blockingIOError, .childProcessError, .connectionError, .brokenPipeError, .fileExistsError, .fileNotFoundError,
    .interruptedError, .isADirectoryError, .notADirectoryError, .permissionError, .processLookupError,
    .timeoutError, .referenceError, .runtimeError, .notImplementedError, .recursionError, .syntaxError,
    .indentationError, .tabError, .systemError, .typeError, .valueError, .unicodeError, .unicodeDecodeError,
    .unicodeEncodeError, .unicodeTranslateError, .warning, .deprecationWarning, .pendingDeprecationWarning,
    .runtimeWarning, .syntaxWarning, .userWarning, .futureWarning, .importWarning, .unicodeWarning, .bytesWarning,
    .resourceWarning]

/-- The name of an exception type in the language. -/
def name : ExceptionKind → String
  | .baseException => "BaseException"
  | .systemExit => "SystemExit"
  | .keyboardInterrupt => "KeyboardInterrupt"
  | .generatorExit => "GeneratorExit"
  | .exception => "Exception"
  | .stopIteration => "StopIteration"
  | .stopAsyncIteration => "StopAsyncIteration"
  | .standardError => "StandardError"
  | .arithmeticError => "ArithmeticError"
  | .floatingPointError => "FloatingPointError"
  | .overflowError => "OverflowError"
  | .zeroDivisionError => "ZeroDivisionError"
  | .assertionError => "AssertionError"
  | .attributeError => "AttributeError"
  | .bufferError => "BufferError"
  | .eofError => "EOFError"
  | .importError => "ImportError"
  | .moduleNotFoundError => "ModuleNotFoundError"
  | .lookupError => "LookupError"
  | .indexError => "IndexError"
  | .keyError => "KeyError"
  | .memoryError => "MemoryError"
  | .nameError => "NameError"
  | .unboundLocalError => "UnboundLocalError"
  | .osError => "OSError"
  | .environmentError => "EnvironmentError"
  | .ioError => "IOError"
  | .blockingIOError => "BlockingIOError"
  | .childProcessError => "ChildProcessError"
  | .connectionError => "ConnectionError"
  | .brokenPipeError => "BrokenPipeError"
  | .fileExistsError => "FileExistsError"
  | .fileNotFoundError => "FileNotFoundError"
  | .interruptedError => "InterruptedError"
  | .isADirectoryError => "IsADirectoryError"
  | .notADirectoryError => "NotADirectoryError"
  | .permissionError => "PermissionError"
  | .processLookupError => "ProcessLookupError"
  | .timeoutError => "TimeoutError"
  | .referenceError => "ReferenceError"
  | .runtimeError => "RuntimeError"
  | .notImplementedError => "NotImplementedError"
  | .recursionError => "RecursionError"
  | .syntaxError => "SyntaxError"
  | .indentationError => "IndentationError"
  | .tabError => "TabError"
  | .systemError => "SystemError"
  | .typeError => "TypeError"
  | .valueError => "ValueError"
  | .unicodeError => "UnicodeError"
  | .unicodeDecodeError => "UnicodeDecodeError"
  | .unicodeEncodeError => "UnicodeEncodeError"
  | .unicodeTranslateError => "UnicodeTranslateError"
  | .warning => "Warning"
  | .deprecationWarning => "DeprecationWarning"
  | .pendingDeprecationWarning => "PendingDeprecationWarning"
  | .runtimeWarning => "RuntimeWarning"
  | .syntaxWarning => "SyntaxWarning"
  | .userWarning => "UserWarning"
  | .futureWarning => "FutureWarning"
  | .importWarning => "ImportWarning"
  | .unicodeWarning => "UnicodeWarning"
  | .bytesWarning => "BytesWarning"
  | .resourceWarning => "ResourceWarning"

/-- The versions an exception type exists in. -/
def availability : ExceptionKind → Availability
  | .standardError => .onlyPython2
  | .stopAsyncIteration | .moduleNotFoundError | .blockingIOError | .childProcessError | .connectionError
  | .brokenPipeError | .fileExistsError | .fileNotFoundError | .interruptedError | .isADirectoryError
  | .notADirectoryError | .permissionError | .processLookupError | .timeoutError | .recursionError
  | .resourceWarning => .onlyPython3
  | _ => .both

/-- The base class in the newer version; `BaseException` stands above all others. -/
def base : ExceptionKind → ExceptionKind
  | .baseException | .systemExit | .keyboardInterrupt | .generatorExit | .exception => .baseException
  | .floatingPointError | .overflowError | .zeroDivisionError => .arithmeticError
  | .moduleNotFoundError => .importError
  | .indexError | .keyError => .lookupError
  | .unboundLocalError => .nameError
  | .environmentError | .ioError | .blockingIOError | .childProcessError | .connectionError
  | .fileExistsError | .fileNotFoundError | .interruptedError | .isADirectoryError | .notADirectoryError
  | .permissionError | .processLookupError | .timeoutError => .osError
  | .brokenPipeError => .connectionError
  | .notImplementedError | .recursionError => .runtimeError
  | .indentationError => .syntaxError
  | .tabError => .indentationError
  | .unicodeError => .valueError
  | .unicodeDecodeError | .unicodeEncodeError | .unicodeTranslateError => .unicodeError
  | .deprecationWarning | .pendingDeprecationWarning | .runtimeWarning | .syntaxWarning | .userWarning
  | .futureWarning | .importWarning | .unicodeWarning | .bytesWarning | .resourceWarning => .warning
  | _ => .exception

/-- Whether the older version has `StandardError` as the base class. -/
def isStandardError : ExceptionKind → Bool
  | .arithmeticError | .assertionError | .attributeError | .bufferError | .environmentError | .eofError
  | .importError | .lookupError | .memoryError | .nameError | .referenceError | .runtimeError | .syntaxError
  | .systemError | .typeError | .valueError => true
  | _ => false

/-- The direct base class in a version, `none` for `BaseException`. -/
def parent (version : Version) (kind : ExceptionKind) : Option ExceptionKind :=
  if kind = .baseException then none
  else match version with
    | .python3 => some kind.base
    | .python2 =>
      if kind = .ioError ∨ kind = .osError then some .environmentError
      else if kind.isStandardError then some .standardError
      else some kind.base

/-- Whether an exception type exists in a version. -/
def existsIn (version : Version) (kind : ExceptionKind) : Bool := kind.availability.includes version

/-- The exception type a name stands for in a version. -/
def ofName? (version : Version) (name : String) : Option ExceptionKind :=
  all.find? fun kind => kind.name == name && kind.existsIn version

/-- The names of the exception types of a version, in the order of the table. -/
def names (version : Version) : List String := (all.filter (existsIn version)).map name

/-- The base classes above a type, nearest first, at most `fuel` of them. -/
def basesUpTo (version : Version) : Nat → ExceptionKind → List ExceptionKind
  | 0, _ => []
  | fuel + 1, kind =>
    match kind.parent version with
    | none => []
    | some base => base :: basesUpTo version fuel base

/-- The base classes above a type, nearest first. No type has more than six. -/
def bases (version : Version) (kind : ExceptionKind) : List ExceptionKind := basesUpTo version 6 kind

/-- Whether a handler for `other` catches an exception of type `kind`. -/
def isSubclassOf (version : Version) (kind other : ExceptionKind) : Bool :=
  kind == other || (kind.bases version).contains other

/-- Six steps up reach the top from everywhere. -/
theorem basesUpTo_eq_bases (version : Version) (kind : ExceptionKind) :
    basesUpTo version 7 kind = kind.bases version := by
  cases version <;> cases kind <;> rfl

theorem mem_all (kind : ExceptionKind) : kind ∈ all := by
  cases kind <;> decide

end ExceptionKind

end Specializer
