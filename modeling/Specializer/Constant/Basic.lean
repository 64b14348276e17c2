import Specializer.Constant.IntRange
import Specializer.Version

/-!
# Constants

The values known before a program runs: the immutable values, and the containers that can still be built from
constants. The older version has a second integer type, and its byte strings are its ordinary strings.
-/

namespace Specializer

/-- A constant value. -/
inductive Constant where
  | none
  | bool (b : Bool)
  | int (n : Int64)
  /-- The long integers of the older version. -/
  | long (n : Int64)
  | float (x : Float)
  | str (s : String)
  | bytes (b : List UInt8)
  | tuple (items : List Constant)
  | list (items : List Constant)
  /-- The entries in insertion order. -/
  | dict (entries : List (Constant × Constant))
  | range (r : IntRange)
  deriving Inhabited

namespace Constant

/-- The name of the type of a value. -/
def typeName (version : Version) : Constant → String
  | .none => "NoneType"
  | .bool _ => "bool"
  | .int _ => "int"
  | .long _ => if version.isPython3 then "int" else "long"
  | .float _ => "float"
  | .str _ => "str"
  | .bytes _ => if version.isPython3 then "bytes" else "str"
  | .tuple _ => "tuple"
  | .list _ => "list"
  | .dict _ => "dict"
  | .range _ => if version.isPython3 then "range" else "xrange"

/-- The value of a truth value or an integer. -/
def asInt? : Constant → Option Int64
  | .bool b => some (if b then 1 else 0)
  | .int n | .long n => some n
  | _ => Option.none

/-- The value of a number as a float; integers are rounded to the nearest one. -/
def asFloat? : Constant → Option Float
  | .float x => some x
  | c => c.asInt?.map Int64.toFloat

/-- Whether the value is a float. -/
def isFloat : Constant → Bool
  | .float _ => true
  | _ => false

/-- The length of a sized value. Text counts code points. -/
def length? : Constant → Option Nat
  | .str s => some s.length
  | .bytes b => some b.length
  | .tuple items | .list items => some items.length
  | .dict entries => some entries.length
  | .range r => some r.length
  | _ => Option.none

/-- Whether a value counts as true: numbers unless zero, sized values unless empty. -/
def isTruthy : Constant → Bool
  | .none => false
  | .bool b => b
  | .int n | .long n => n != 0
  | .float x => x != 0.0
  | c => match c.length? with
    | some n => 0 < n
    | Option.none => true

mutual

/-- Whether a value can be a key: lists and dictionaries cannot, nor can a tuple that holds one. -/
def hashable : Constant → Bool
  | .list _ | .dict _ => false
  | .tuple items => allHashable items
  | _ => true

/-- Whether all values can be keys. -/
def allHashable : List Constant → Bool
  | [] => true
  | c :: rest => c.hashable && allHashable rest

end

/-- The values an iteration yields, `none` for a value that cannot be iterated over. -/
def elements? (version : Version) : Constant → Option (List Constant)
  | .str s => some (s.toList.map fun c => .str (String.singleton c))
  | .bytes b => match version with
    | .python3 => some (b.map fun x => .int (Int64.ofNat x.toNat))
    | .python2 => some (b.map fun x => .bytes [x])
  | .tuple items | .list items => some items
  | .dict entries => some (entries.map (·.1))
  | .range r => some (r.elements.map .int)
  | _ => Option.none

/-- The content of a text constant. -/
def text? : Constant → Option String
  | .str s => some s
  | _ => Option.none

end Constant

end Specializer
