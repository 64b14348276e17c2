import Mathlib.Data.Set.Card
import Specializer.Proofs.Computation

/-!
# The arithmetic of ranges

A range between 64-bit bounds has as many members as its progression has values before the stop, in the direction of the
step (`lt_length_iff`), and each member is the exact value of the progression: it lies between the bounds, so nothing is
lost by storing it in 64 bits (`toInt_elements`).

`wideLength?` and `wideElements?` do the same with signed words of 128 bits, and give up as soon as an intermediate
result does not fit. They never do (`wideLength?_eq`, `wideElements?_eq`), although the distance of the bounds and the
opposite of the step need more than 64 bits. The builtin `range` gives such a range, or spells it out.
-/

namespace Specializer

namespace IntRange

/-! ## Counting -/

/-- Whether the progression has not reached the stop after `k` steps. A step of zero leads nowhere. -/
def Continues (r : IntRange) (k : Nat) : Prop :=
  0 < r.step.toInt ∧ r.start.toInt + k * r.step.toInt < r.stop.toInt ∨
    r.step.toInt < 0 ∧ r.stop.toInt < r.start.toInt + k * r.step.toInt

/-- How many steps of a positive width lead from `low` to values below `high`. -/
theorem lt_toNat_iff {low high width : Int} (hwidth : 0 < width) (k : Nat) :
    k < ((high - low - 1) / width + 1).toNat ↔ low + k * width < high := by
  have hdiv : (k : Int) ≤ (high - low - 1) / width ↔ k * width ≤ high - low - 1 := Int.le_ediv_iff_mul_le hwidth
  omega

theorem lt_length_iff (r : IntRange) (k : Nat) : k < r.length ↔ r.Continues k := by
  have hsteps (width : Int) (hwidth : 0 < width) : 0 ≤ (k : Int) * width := Int.mul_nonneg (by omega) (by omega)
  unfold length Continues
  simp only
  split
  · next h =>
    rw [lt_toNat_iff h.1]
    omega
  · next hup =>
    split
    · next h =>
      rw [lt_toNat_iff (by omega), Int.mul_neg]
      omega
    · next hdown =>
      constructor
      · omega
      · rintro (⟨hstep, hlt⟩ | ⟨hstep, hlt⟩)
        · have hforth := hsteps _ hstep
          omega
        · have hback := hsteps (-r.step.toInt) (by omega)
          rw [Int.mul_neg] at hback
          omega

/-- The length counts the values before the stop. -/
theorem encard_continues (r : IntRange) : Set.encard {k : ℕ | r.Continues k} = r.length := by
  have hset : {k : ℕ | r.Continues k} = Finset.range r.length := by
    ext k
    rw [Set.mem_ofPred_eq, ← lt_length_iff, Finset.coe_range, Set.mem_Iio]
  rw [hset, Set.encard_coe_eq_coe_finsetCard, Finset.card_range]

/-! ## Members -/

/-- Every value before the stop lies between the bounds. -/
theorem Continues.between {r : IntRange} {k : Nat} (h : r.Continues k) :
    r.start.toInt ≤ r.start.toInt + k * r.step.toInt ∧ r.start.toInt + k * r.step.toInt < r.stop.toInt ∨
      r.stop.toInt < r.start.toInt + k * r.step.toInt ∧ r.start.toInt + k * r.step.toInt ≤ r.start.toInt := by
  rcases h with ⟨hstep, hlt⟩ | ⟨hstep, hlt⟩
  · have hforth : 0 ≤ k * r.step.toInt := Int.mul_nonneg (by omega) (by omega)
    omega
  · have hback : k * r.step.toInt ≤ 0 := Int.mul_nonpos_of_nonneg_of_nonpos (by omega) (by omega)
    omega

theorem toInt_member (r : IntRange) {k : Nat} (h : k < r.length) :
    (Int64.ofInt (r.value k)).toInt = r.start.toInt + k * r.step.toInt := by
  have hbetween := ((lt_length_iff r k).1 h).between
  have hvalue : r.value k = r.start.toInt + k * r.step.toInt := by rw [value, Int.mul_comm]
  have hstart := r.start.le_toInt
  have hstart' := r.start.toInt_lt
  have hstop := r.stop.le_toInt
  have hstop' := r.stop.toInt_lt
  rw [hvalue, Int64.toInt_ofInt_of_le (by omega) (by omega)]

/-- The members are the exact values of the progression. -/
theorem toInt_elements (r : IntRange) :
    r.elements.map Int64.toInt = (List.range r.length).map fun k : ℕ => r.start.toInt + k * r.step.toInt := by
  rw [elements, List.map_map]
  apply List.map_congr_left
  intro k hk
  exact r.toInt_member (List.mem_range.1 hk)

/-! ## Words of 128 bits -/

/-- A result in signed words of `bits` bits, `none` if it does not fit. -/
def word? (bits : Nat) (n : Int) : Option Int := if -2 ^ (bits - 1) ≤ n ∧ n < 2 ^ (bits - 1) then some n else none

/-- A count in 64 bits without a sign, `none` if it does not fit. -/
def count? (n : Int) : Option Nat := if 0 ≤ n ∧ n < 2 ^ 64 then some n.toNat else none

/-- The number of steps from `low` to values below `high`, step by step. The division goes toward zero. -/
def wideCount? (low high width : Int) : Option Nat := do
  let distance ← word? 128 (high - low)
  let last ← word? 128 (distance - 1)
  let steps ← word? 128 (last.tdiv width)
  let count ← word? 128 (steps + 1)
  count? count

/-- The length of a range, step by step. -/
def wideLength? (r : IntRange) : Option Nat :=
  if 0 < r.step.toInt ∧ r.start.toInt < r.stop.toInt then wideCount? r.start.toInt r.stop.toInt r.step.toInt
  else if r.step.toInt < 0 ∧ r.stop.toInt < r.start.toInt then do
    let width ← word? 128 (-r.step.toInt)
    wideCount? r.stop.toInt r.start.toInt width
  else some 0

/-- The member after `k` steps, step by step. -/
def wideMember? (r : IntRange) (k : Nat) : Option Int64 := do
  let index ← word? 128 k
  let offset ← word? 128 (r.step.toInt * index)
  let member ← word? 128 (r.start.toInt + offset)
  (word? 64 member).map Int64.ofInt

/-- The members, step by step. -/
def wideElements? (r : IntRange) : Option (List Int64) := do
  let length ← r.wideLength?
  (List.range length).mapM r.wideMember?

/-- A result that fits is passed on as it is. -/
theorem word?_bind {α : Type} {n : Int} {f : Int → Option α} (hlow : -2 ^ 127 ≤ n) (hhigh : n < 2 ^ 127) :
    (word? 128 n >>= f) = f n := by
  have hfits : word? 128 n = some n := if_pos ⟨hlow, hhigh⟩
  rw [hfits]
  rfl

/-- Between 64-bit bounds every step of the count fits its words, and the count does not have to be cut. -/
theorem wideCount?_eq {low high width : Int} (hlow : -2 ^ 63 ≤ low) (hhigh : high < 2 ^ 63) (hlt : low < high)
    (hwidth : 0 < width) : wideCount? low high width = some ((high - low - 1) / width + 1).toNat := by
  have hsteps : 0 ≤ (high - low - 1) / width := Int.ediv_nonneg (by omega) (by omega)
  have hsteps' : (high - low - 1) / width ≤ high - low - 1 := Int.ediv_le_self _ (by omega)
  have hdiv : (high - low - 1).tdiv width = (high - low - 1) / width := Int.tdiv_eq_ediv_of_nonneg (by omega)
  rw [wideCount?, word?_bind (by omega) (by omega), word?_bind (by omega) (by omega), hdiv,
    word?_bind (by omega) (by omega), word?_bind (by omega) (by omega)]
  exact if_pos ⟨by omega, by omega⟩

/-- **The length is computed without overflow.** -/
theorem wideLength?_eq (r : IntRange) : r.wideLength? = some r.length := by
  have hstart := r.start.le_toInt
  have hstart' := r.start.toInt_lt
  have hstop := r.stop.le_toInt
  have hstop' := r.stop.toInt_lt
  have hstep := r.step.le_toInt
  unfold wideLength? length
  simp only
  split
  · next h => exact wideCount?_eq hstart hstop' h.2 h.1
  · split
    · next h =>
      rw [word?_bind (by omega) (by omega)]
      exact wideCount?_eq hstop hstart' h.2 (by omega)
    · rfl

theorem length_lt (r : IntRange) : r.length < 2 ^ 64 := by
  by_contra hlong
  have hstart := r.start.le_toInt
  have hstart' := r.start.toInt_lt
  have hstop := r.stop.le_toInt
  have hstop' := r.stop.toInt_lt
  have hlast : r.Continues (2 ^ 64 - 1) := (lt_length_iff r _).1 (by omega)
  unfold Continues at hlast
  omega

/-- **The members are computed without overflow.** -/
theorem wideMember?_eq (r : IntRange) {k : Nat} (h : k < r.length) :
    r.wideMember? k = some (Int64.ofInt (r.value k)) := by
  have hbetween := ((lt_length_iff r k).1 h).between
  have hlength := r.length_lt
  have hstart := r.start.le_toInt
  have hstart' := r.start.toInt_lt
  have hstop := r.stop.le_toInt
  have hstop' := r.stop.toInt_lt
  rw [Int.mul_comm] at hbetween
  rw [wideMember?, word?_bind (by omega) (by omega), word?_bind (by omega) (by omega),
    word?_bind (by omega) (by omega)]
  have hfits : word? 64 (r.value k) = some (r.value k) := if_pos ⟨by rw [value]; omega, by rw [value]; omega⟩
  rw [← value, hfits]
  rfl

theorem wideElements?_eq (r : IntRange) : r.wideElements? = some r.elements := by
  have hmembers (ks : List Nat) (hks : ∀ k ∈ ks, k < r.length) :
      ks.mapM r.wideMember? = some (ks.map fun k => Int64.ofInt (r.value k)) := by
    induction ks with
    | nil => rfl
    | cons k ks ih =>
      rw [List.mapM_cons, r.wideMember?_eq (hks k (by simp)), ih fun k' hk' => hks k' (by simp [hk'])]
      rfl
  rw [wideElements?, wideLength?_eq, Option.bind_eq_bind, Option.bind_some, elements]
  exact hmembers _ fun k hk => List.mem_range.1 hk

end IntRange

/-! ## The builtin -/

namespace Builtin

variable {version : Version}

/-- What the arguments of `range` amount to does not depend on the version, as long as they are integers. -/
theorem rangeBounds_ok {values : List Constant} {bounds : List Int64}
    (h : rangeBounds version values = .ok bounds) (version' : Version) : rangeBounds version' values = .ok bounds := by
  induction values generalizing bounds with
  | nil => exact h
  | cons value values ih =>
    unfold rangeBounds at h ⊢
    cases hvalue : value.asInt? with
    | none =>
      rw [hvalue] at h
      cases version <;> cases h
    | some n =>
      simp only [hvalue] at h ⊢
      obtain ⟨rest, hrest, hbounds⟩ := bind_eq_ok_iff.1 h
      rw [ih hrest]
      exact hbounds

/-- The range between one to three bounds. -/
def rangeOf? : List Int64 → Option IntRange
  | [stop] => some ⟨0, stop, 1⟩
  | [start, stop] => some ⟨start, stop, 1⟩
  | [start, stop, step] => some ⟨start, stop, step⟩
  | _ => none

/-- What a version makes of a range. -/
def rangeValue (r : IntRange) : Version → Outcome
  | .python3 => if r.step = 0 then .error (.valueError "range() arg 3 must not be zero") else .ok (.range r)
  | .python2 =>
    if r.step = 0 then .error (.valueError "range() step argument must not be zero")
    else if maxRangeElements < r.length then .error .decline
    else .ok (.list (r.elements.map .int))

theorem range_of_bounds (args : BoundArguments Constant) {bounds : List Int64}
    (h : rangeBounds version (args.values.filterMap id) = .ok bounds) :
    range args version = match rangeOf? bounds with
      | some r => rangeValue r version
      | none => .error .decline := by
  rw [range, h, ok_bind]
  -- one case for each number of bounds
  rcases bounds with _ | ⟨_, _ | ⟨_, _ | ⟨_, _ | ⟨_, _⟩⟩⟩⟩ <;> cases version <;> rfl

/-- The older version spells out what the newer one gives, if that is short. -/
theorem range_python2_of_python3 {args : BoundArguments Constant} {r : IntRange}
    (h : range args .python3 = .ok (.range r)) : range args .python2 =
      if r.length ≤ maxRangeElements then .ok (.list (r.elements.map .int)) else .error .decline := by
  obtain ⟨bounds, hbounds⟩ : ∃ bounds, rangeBounds .python3 (args.values.filterMap id) = .ok bounds := by
    obtain ⟨bounds, hbounds, -⟩ := bind_eq_ok_iff.1 h
    exact ⟨bounds, hbounds⟩
  rw [range_of_bounds args hbounds] at h
  rw [range_of_bounds args (rangeBounds_ok hbounds .python2)]
  cases hrange : rangeOf? bounds with
  | none =>
    rw [hrange] at h
    cases h
  | some r' =>
    simp only [hrange, rangeValue] at h ⊢
    split at h
    · cases h
    · next hstep =>
      cases h
      rw [if_neg hstep]
      simp only [← Nat.not_le, ite_not]

/-- The bounds and the step of a range as the arguments of `range`. -/
def rangeArguments (r : IntRange) : BoundArguments Constant where
  values := [some (.int r.start), some (.int r.stop), some (.int r.step)]

theorem range_python3_arguments {r : IntRange} (h : r.step ≠ 0) : range (rangeArguments r) .python3 = .ok (.range r) := by
  have hbounds : rangeBounds .python3 ((rangeArguments r).values.filterMap id) = .ok [r.start, r.stop, r.step] := rfl
  rw [range_of_bounds _ hbounds]
  exact if_neg h

end Builtin

/-- **Ranges are exact.** For all bounds and steps of 64 bits: the length is the number of values that the progression has
before the stop, and is found in words of 128 bits and given in 64 bits without losing anything; the members are these
values, each of which fits 64 bits. Where the newer version's `range` gives the range, as it does for every step but zero,
the older version gives the list of the members if there are at most 256, and declines otherwise. -/
theorem range_exact (r : IntRange) :
    Set.encard {k : ℕ | r.Continues k} = r.length ∧ r.wideLength? = some r.length ∧
    ∃ members : List Int64,
      members.map Int64.toInt = (List.range r.length).map (fun k : ℕ => r.start.toInt + k * r.step.toInt) ∧
      r.wideElements? = some members ∧
      (∀ version, (Constant.range r).elements? version = some (members.map .int)) ∧
      (r.step ≠ 0 → PureBuiltin.range.evaluate (Builtin.rangeArguments r) .python3 = .ok (.range r)) ∧
      ∀ args, PureBuiltin.range.evaluate args .python3 = .ok (.range r) →
        PureBuiltin.range.evaluate args .python2 =
          if r.length ≤ 256 then .ok (.list (members.map .int)) else .error .decline :=
  ⟨r.encard_continues, r.wideLength?_eq, r.elements, r.toInt_elements, r.wideElements?_eq, fun _ => rfl,
    Builtin.range_python3_arguments, fun _ => Builtin.range_python2_of_python3⟩

/-- The longest way down, by the longest step: the step has no opposite in 64 bits. -/
def longestStep : IntRange := ⟨Int64.maxValue, Int64.minValue, Int64.minValue⟩

theorem range_exact_longestStep : longestStep.step ≠ 0 ∧
    PureBuiltin.range.evaluate (Builtin.rangeArguments longestStep) .python3 = .ok (.range longestStep) ∧
    PureBuiltin.range.evaluate (Builtin.rangeArguments longestStep) .python2 =
      .ok (.list [.int Int64.maxValue, .int (-1)]) := by
  obtain ⟨-, -, members, -, -, helements, hpython3, hpython2⟩ := range_exact longestStep
  have hstep : longestStep.step ≠ 0 := by decide
  have hmembers : members.map Constant.int = [.int Int64.maxValue, .int (-1)] :=
    Option.some.inj ((helements .python2).symm.trans rfl)
  refine ⟨hstep, hpython3 hstep, ?_⟩
  rw [hpython2 _ (hpython3 hstep), if_pos (by decide), hmembers]

end Specializer
