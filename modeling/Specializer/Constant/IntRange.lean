/-!
# Integer ranges

An arithmetic progression between 64-bit bounds. Lengths and members are computed over the integers, so nothing
overflows: every member lies between the bounds.
-/

namespace Specializer

/-- The integers `start`, `start + step`, … before `stop`; none when the step is zero. -/
structure IntRange where
  start : Int64
  stop : Int64
  step : Int64
  deriving DecidableEq, Repr, Inhabited

namespace IntRange

/-- How many members the range has. -/
def length (r : IntRange) : Nat :=
  let start := r.start.toInt
  let stop := r.stop.toInt
  let step := r.step.toInt
  if 0 < step ∧ start < stop then ((stop - start - 1) / step + 1).toNat
  else if step < 0 ∧ stop < start then ((start - stop - 1) / (-step) + 1).toNat
  else 0

/-- The `k`-th value of the progression, whether or not it still belongs to the range. -/
def value (r : IntRange) (k : Nat) : Int := r.start.toInt + r.step.toInt * k

/-- The members in order. -/
def elements (r : IntRange) : List Int64 := (List.range r.length).map fun k => Int64.ofInt (r.value k)

end IntRange

end Specializer
