import Specializer.Builtin.Characters
import Specializer.Builtin.Containers
import Specializer.Builtin.Numbers

/-!
# Builtins that can be evaluated

The builtins whose result over constants depends on nothing but the arguments and the version.
-/

namespace Specializer

/-- A builtin that can be evaluated over constants. -/
inductive PureBuiltin where
  | chr
  | ord
  | bin
  | oct
  | hex
  | len
  | range
  | tuple
  | list
  | dict
  | float
  | str
  | bool
  | int
  | long
  deriving DecidableEq, Repr

/-- The evaluation of a builtin. -/
def PureBuiltin.evaluate : PureBuiltin → Evaluator
  | .chr => Builtin.chr
  | .ord => Builtin.ord
  | .bin => Builtin.inRadix .binary
  | .oct => Builtin.inRadix .octal
  | .hex => Builtin.inRadix .hexadecimal
  | .len => Builtin.len
  | .range => Builtin.range
  | .tuple => Builtin.tuple
  | .list => Builtin.list
  | .dict => Builtin.dict
  | .float => Builtin.float
  | .str => Builtin.str
  | .bool => Builtin.bool
  | .int => Builtin.int
  | .long => Builtin.long

end Specializer
