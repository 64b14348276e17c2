import Specializer.Builtin.Outcome
import Specializer.Constant.Equality

/-!
# Containers, ranges and text

`len`, `range`, `tuple`, `list`, `dict` and `str`. Long ranges are never spelled out.
-/

namespace Specializer.Builtin

/-- The longest range that is spelled out. -/
def maxRangeElements : Nat := 256

/-- The length of a sized value. -/
def len (args : BoundArguments Constant) (version : Version) : Outcome := do
  let value ← args.getOrDecline 0
  match value.length? with
  | some n => if (n : Int) ≤ Int64.maxValue.toInt then return .int (Int64.ofNat n) else throw .decline
  | none => throw (.typeError s!"object of type '{value.typeName version}' has no len()")

/-- Whether a value is a range too long to be spelled out. -/
def isLongRange : Constant → Bool
  | .range r => maxRangeElements < r.length
  | _ => false

/-- The values an iteration yields. -/
def iterate (version : Version) (value : Constant) : Except Fault (List Constant) :=
  if isLongRange value then throw .decline
  else match value.elements? version with
    | some items => return items
    | none => throw (.notIterable version value)

/-- The values an iteration yields as a tuple. -/
def tuple (args : BoundArguments Constant) (version : Version) : Outcome :=
  match args.get? 0 with
  | none => return .tuple []
  | some value => return .tuple (← iterate version value)

/-- The values an iteration yields as a list. -/
def list (args : BoundArguments Constant) (version : Version) : Outcome :=
  match args.get? 0 with
  | none => return .list []
  | some value => return .list (← iterate version value)

/-- Sets the value of a key: the first equal key keeps its place, a new one goes to the end. -/
def insertEntry (key value : Constant) : List (Constant × Constant) → List (Constant × Constant)
  | [] => [(key, value)]
  | (existing, old) :: rest =>
    if existing.eqv key then (existing, value) :: rest else (existing, old) :: insertEntry key value rest

/-- Sets the value of a key, which has to be hashable. -/
def putEntry (version : Version) (entries : List (Constant × Constant)) (key value : Constant) :
    Except Fault (List (Constant × Constant)) :=
  if key.hashable then return insertEntry key value entries else throw (.unhashable version key)

/-- Adds the pairs of an iteration; `index` counts those before. -/
def putPairs (version : Version) (index : Nat) (entries : List (Constant × Constant)) :
    List Constant → Except Fault (List (Constant × Constant))
  | [] => return entries
  | element :: rest => do
    match element.elements? version with
    | none =>
      throw (.typeError s!"cannot convert dictionary update sequence element #{index} to a sequence")
    | some [key, value] => putPairs version (index + 1) (← putEntry version entries key value) rest
    | some pair =>
      throw (.valueError
        s!"dictionary update sequence element #{index} has length {pair.length}; 2 is required")

/-- Adds keyword arguments. -/
def putKeywords (version : Version) (entries : List (Constant × Constant)) :
    List (String × Constant) → Except Fault (List (Constant × Constant))
  | [] => return entries
  | (name, value) :: rest => do putKeywords version (← putEntry version entries (.str name) value) rest

/-- A dictionary of the entries of another one or the pairs of an iteration, and of keyword arguments. -/
def dict (args : BoundArguments Constant) (version : Version) : Outcome := do
  let entries ← match args.get? 0 with
    | none => pure []
    | some (.dict entries) => pure entries
    | some value => putPairs version 0 [] (← iterate version value)
  return .dict (← putKeywords version entries args.starDict)

/-- The integers given for a range. -/
def rangeBounds (version : Version) : List Constant → Except Fault (List Int64)
  | [] => return []
  | value :: rest => match value.asInt? with
    | some n => do return n :: (← rangeBounds version rest)
    | none => match version with
      | .python3 => throw (.notAnInteger version value)
      | .python2 =>
        throw (.typeError s!"range() integer end argument expected, got {value.typeName version}.")

/-- The range with the given bounds, spelled out as a list in the older version. -/
def range (args : BoundArguments Constant) (version : Version) : Outcome := do
  let r : IntRange ← match ← rangeBounds version (args.values.filterMap id) with
    | [stop] => pure ⟨0, stop, 1⟩
    | [start, stop] => pure ⟨start, stop, 1⟩
    | [start, stop, step] => pure ⟨start, stop, step⟩
    | _ => throw .decline
  match version with
  | .python3 =>
    if r.step = 0 then throw (.valueError "range() arg 3 must not be zero")
    return .range r
  | .python2 =>
    if r.step = 0 then throw (.valueError "range() step argument must not be zero")
    if maxRangeElements < r.length then throw .decline
    return .list (r.elements.map .int)

/-- Whether the older version prints a value differently from its literal: it shows twelve digits of a float. -/
def isShortened (version : Version) : Constant → Bool
  | .float x => !version.isPython3 && 12 < Decimal.significantDigits (Decimal.renderFloat x)
  | _ => false

/-- The text of a value. -/
def str (args : BoundArguments Constant) (version : Version) : Outcome :=
  match args.get? 0 with
  | none => return .str ""
  | some value => if isShortened version value then throw .decline else return .str (value.display version)

end Specializer.Builtin
