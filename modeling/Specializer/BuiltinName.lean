import Specializer.ExceptionKind

/-!
# Builtin names

The names every module can use without defining them, per version. Builtin exceptions are builtin names too.
-/

namespace Specializer.BuiltinName

/-- The builtin names of both versions, exceptions apart. -/
def common : List String :=
  ["abs", "all", "any", "bin", "bool", "bytearray", "bytes", "callable", "chr", "classmethod", "compile",
   "complex", "delattr", "dict", "dir", "divmod", "enumerate", "eval", "filter", "float", "format", "frozenset",
   "getattr", "globals", "hasattr", "hash", "help", "hex", "id", "input", "int", "isinstance", "issubclass",
   "iter", "len", "list", "locals", "map", "max", "memoryview", "min", "next", "object", "oct", "open", "ord",
   "pow", "print", "property", "range", "repr", "reversed", "round", "set", "setattr", "slice", "sorted",
   "staticmethod", "str", "sum", "super", "tuple", "type", "vars", "zip", "__import__", "None", "True", "False",
   "Ellipsis", "NotImplemented", "__debug__"]

/-- The further builtin names of the older version. -/
def onlyPython2 : List String :=
  ["apply", "basestring", "buffer", "cmp", "coerce", "execfile", "file", "intern", "long", "raw_input", "reduce",
   "reload", "unichr", "unicode", "xrange"]

/-- The further builtin names of the newer version. -/
def onlyPython3 : List String :=
  ["ascii", "breakpoint", "exec", "__build_class__"]

/-- Whether a name is a builtin exception of a version. -/
def isException (version : Version) (name : String) : Bool := (ExceptionKind.ofName? version name).isSome

/-- Whether a name is provided by the builtins of a version. -/
def isBuiltin (version : Version) (name : String) : Bool :=
  common.contains name || (match version with
    | .python2 => onlyPython2
    | .python3 => onlyPython3).contains name || isException version name

end Specializer.BuiltinName
