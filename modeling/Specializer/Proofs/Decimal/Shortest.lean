import Mathlib.Data.List.TakeWhile
import Mathlib.Tactic.Positivity
import Specializer.Proofs.Decimal.Layout

/-!
# Finite doubles have a shortest decimal

The search for the shortest decimal of a double tries one grid after the other, at most seventeen. The last one is so
fine that the interval of the reals that round to the double is wider than its mesh (`Wide.gap`), and then one of the two
neighbours of the double on it is a hit (`Wide.exists_onGrid`). So the digits that are laid out are always there, and the
text of a finite non-zero double denotes a number that rounds to it (`renderFloat_rounds`).
-/

namespace Specializer

namespace RoundingInterval

variable {i : RoundingInterval} {power : Int} {n d : Nat}

/-- The interval holds the value and reaches well beyond it, compared to its size. -/
structure Wide (i : RoundingInterval) : Prop where
  denominator_pos : 0 < i.denominator
  low_pos : 0 < i.low
  low_lt : i.low < i.value
  lt_high : i.value < i.high
  width : i.value < 10 ^ 16 * (i.high - i.low)

/-- Doubles have at most 53 bits, and their intervals are wide. -/
theorem wide_ofBinary64 {b : Binary64} (hpos : 0 < b.significand) (hlt : b.significand < 2 * Binary64.binade) :
    (ofBinary64 b).Wide := by
  have hunit : 0 < Nat.pow 2 (b.exponent - 2).toNat := Nat.pow_pos (by decide)
  have hdenominator : 0 < Nat.pow 2 (-(b.exponent - 2)).toNat := Nat.pow_pos (by decide)
  -- a step down to a smaller binade is half as long, but only one number is that close to it
  obtain ⟨step, hstep, hsize, hbounds⟩ : ∃ step, (if b.atBinade then 1 else 2) = step ∧ 1 ≤ step ∧ step ≤ 2 ∧
      4 * b.significand < 10 ^ 16 * (2 + step) := by
    unfold Binary64.binade at hlt
    split
    · next hbinade =>
      have hm : b.significand = Binary64.binade := by simpa [Binary64.atBinade] using (Bool.and_eq_true_iff.1 hbinade).1
      exact ⟨1, rfl, by omega, by omega, by rw [hm, Binary64.binade]; omega⟩
    · exact ⟨2, rfl, by omega, by omega, by omega⟩
  have hwidth : (4 * b.significand + 2) - (4 * b.significand - step) = 2 + step := by omega
  constructor
  · exact hdenominator
  · exact Nat.mul_pos (by rw [hstep]; omega) hunit
  · exact Nat.mul_lt_mul_of_pos_right (by rw [hstep]; omega) hunit
  · exact Nat.mul_lt_mul_of_pos_right (by omega) hunit
  · show 4 * b.significand * _ < 10 ^ 16 * ((4 * b.significand + 2) * _ - (4 * b.significand - _) * _)
    rw [hstep, ← Nat.sub_mul, hwidth, ← Nat.mul_assoc]
    exact Nat.mul_lt_mul_of_pos_right hbounds.2 hunit

/-- As many digits as a number has. -/
theorem pow_length_toDigits {q : Nat} (hq : 0 < q) :
    10 ^ ((Nat.toDigits 10 q).length - 1) ≤ q ∧ q < 10 ^ (Nat.toDigits 10 q).length := by
  refine ⟨?_, (Nat.length_toDigits_le_iff (by decide) Nat.length_toDigits_pos).1 (Nat.le_refl _)⟩
  by_cases hone : (Nat.toDigits 10 q).length - 1 = 0
  · rw [hone]
    exact hq
  · have hshorter := Nat.length_toDigits_le_iff (n := q) (by decide : 1 < 10) (Nat.pos_of_ne_zero hone)
    have hpos : 0 < (Nat.toDigits 10 q).length := Nat.length_toDigits_pos
    omega

/-- The power of ten of the first digit is not too large. -/
theorem Wide.magnitude_le (h : i.Wide) :
    i.denominator * 10 ^ i.magnitude.toNat ≤ i.value * 10 ^ (-i.magnitude).toNat := by
  have hvalue : 0 < i.value := Nat.lt_trans h.low_pos h.low_lt
  by_cases hle : i.denominator ≤ i.value
  · have hm : i.magnitude = ((Nat.toDigits 10 (i.value / i.denominator)).length : Int) - 1 := if_pos hle
    obtain ⟨hlow, -⟩ := pow_length_toDigits (Nat.div_pos hle h.denominator_pos)
    have hpos : 0 < (Nat.toDigits 10 (i.value / i.denominator)).length := Nat.length_toDigits_pos
    have hup : i.magnitude.toNat = (Nat.toDigits 10 (i.value / i.denominator)).length - 1 := by omega
    have hdown : (-i.magnitude).toNat = 0 := by omega
    rw [hup, hdown, Nat.pow_zero, Nat.mul_one]
    exact Nat.le_trans (Nat.mul_le_mul_left _ hlow) (Nat.mul_div_le ..)
  · have hm : i.magnitude = -((Nat.toDigits 10 (i.denominator / i.value)).length : Int) := if_neg hle
    obtain ⟨-, hhigh⟩ := pow_length_toDigits (Nat.div_pos (Nat.le_of_not_le hle) hvalue)
    have hup : i.magnitude.toNat = 0 := by omega
    have hdown : (-i.magnitude).toNat = (Nat.toDigits 10 (i.denominator / i.value)).length := by omega
    rw [hup, hdown, Nat.pow_zero, Nat.mul_one]
    exact Nat.le_of_lt (Nat.mul_comm .. ▸ (Nat.div_lt_iff_lt_mul hvalue).1 hhigh)

/-- The mesh of the seventeenth grid is smaller than the interval. -/
theorem Wide.gap (h : i.Wide) : i.denominator * 10 ^ (i.magnitude - 16).toNat <
    (i.high - i.low) * 10 ^ (-(i.magnitude - 16)).toNat := by
  have hpow : 10 ^ (i.magnitude - 16).toNat * (10 ^ 16 * 10 ^ (-i.magnitude).toNat) =
      10 ^ i.magnitude.toNat * 10 ^ (-(i.magnitude - 16)).toNat := by
    rw [← Nat.pow_add, ← Nat.pow_add, ← Nat.pow_add]
    congr 1
    omega
  refine Nat.lt_of_mul_lt_mul_right (a := 10 ^ 16 * 10 ^ (-i.magnitude).toNat) ?_
  calc i.denominator * 10 ^ (i.magnitude - 16).toNat * (10 ^ 16 * 10 ^ (-i.magnitude).toNat)
      = i.denominator * 10 ^ i.magnitude.toNat * 10 ^ (-(i.magnitude - 16)).toNat := by
        rw [Nat.mul_assoc, hpow, Nat.mul_assoc]
    _ ≤ i.value * 10 ^ (-i.magnitude).toNat * 10 ^ (-(i.magnitude - 16)).toNat :=
        Nat.mul_le_mul_right _ h.magnitude_le
    _ < 10 ^ 16 * (i.high - i.low) * 10 ^ (-i.magnitude).toNat * 10 ^ (-(i.magnitude - 16)).toNat := by
        have := h.width
        gcongr
    _ = (i.high - i.low) * 10 ^ (-(i.magnitude - 16)).toNat * (10 ^ 16 * 10 ^ (-i.magnitude).toNat) := by ring

/-- The ends may or may not belong to the interval, all that is between them does. -/
theorem contains_of_lt (hlow : i.low * d < n * i.denominator) (hhigh : n * i.denominator < i.high * d) :
    i.contains n d = true := by
  unfold contains
  split
  · simp [Nat.le_of_lt hlow, Nat.le_of_lt hhigh]
  · simp [hlow, hhigh]

/-- On a grid with a smaller mesh there is a hit. -/
theorem Wide.exists_onGrid (h : i.Wide)
    (hgap : i.denominator * 10 ^ power.toNat < (i.high - i.low) * 10 ^ (-power).toNat) :
    ∃ n, i.onGrid power = some n := by
  unfold onGrid
  dsimp only
  generalize hup : Nat.pow 10 power.toNat = up
  generalize hdown : Nat.pow 10 (-power).toNat = down
  replace hgap : i.denominator * up < (i.high - i.low) * down := hup ▸ hdown ▸ hgap
  have hdpos : 0 < down := hdown ▸ Nat.pow_pos (by decide)
  have hmesh : 0 < i.denominator * up := Nat.mul_pos h.denominator_pos (hup ▸ Nat.pow_pos (by decide))
  have hlow : i.low * down < i.value * down := Nat.mul_lt_mul_of_pos_right h.low_lt hdpos
  have hhigh : i.value * down < i.high * down := Nat.mul_lt_mul_of_pos_right h.lt_high hdpos
  have hbelow := Nat.div_mul_le_self (i.value * down) (i.denominator * up)
  have habove := Nat.lt_div_mul_add (a := i.value * down) hmesh
  generalize i.value * down / (i.denominator * up) = below at *
  have hmul (k : Nat) : k * up * i.denominator = k * (i.denominator * up) := by ring
  rw [Nat.sub_mul] at hgap
  -- if the lower neighbour is out, the upper one is in
  have hhit : i.contains (below * up) down = true ∨ i.contains ((below + 1) * up) down = true := by
    by_cases hin : i.low * down < below * (i.denominator * up)
    · exact .inl (contains_of_lt (by rw [hmul]; exact hin) (by rw [hmul]; omega))
    · exact .inr (contains_of_lt (by rw [hmul, Nat.add_one_mul]; omega) (by rw [hmul, Nat.add_one_mul]; omega))
  split
  · split <;> exact ⟨_, rfl⟩
  · exact ⟨_, rfl⟩
  · exact ⟨_, rfl⟩
  · next hmiss hmiss' => simp [hmiss, hmiss'] at hhit

theorem contains_of_onGrid (h : i.onGrid power = some n) :
    i.contains (n * 10 ^ power.toNat) (10 ^ (-power).toNat) = true := by
  unfold onGrid at h
  dsimp only at h
  split at h
  · next hbelow habove =>
    split at h <;> cases h
    · exact hbelow
    · exact habove
  · next hbelow _ =>
    cases h
    exact hbelow
  · next _ habove =>
    cases h
    exact habove
  · cases h

/-- The search ends with a hit, if one of the grids has one. -/
theorem search_of_onGrid {magnitude : Int} : ∀ {fuel count : Nat},
    (∃ j < fuel, ∃ n, i.onGrid (magnitude - (count + j : Nat) + 1) = some n) →
    i.onGrid (i.search magnitude fuel count).2 = some (i.search magnitude fuel count).1
  | 0, _, h => by
    obtain ⟨j, hj, -⟩ := h
    omega
  | fuel + 1, count, h => by
    obtain ⟨j, hj, n, hn⟩ := h
    unfold search
    dsimp only
    split
    · next hhit => exact hhit
    · next hmiss =>
      cases j with
      | zero =>
        rw [Nat.add_zero, hmiss] at hn
        cases hn
      | succ j =>
        refine search_of_onGrid ⟨j, by omega, n, ?_⟩
        rwa [Nat.add_assoc, Nat.add_comm 1 j]

/-- Seventeen digits are enough. -/
theorem Wide.onGrid_search (h : i.Wide) :
    i.onGrid (i.search i.magnitude 17 1).2 = some (i.search i.magnitude 17 1).1 := by
  obtain ⟨n, hn⟩ := h.exists_onGrid h.gap
  refine search_of_onGrid ⟨16, by decide, n, ?_⟩
  have hlast : i.magnitude - (1 + 16 : Nat) + 1 = i.magnitude - 16 := by omega
  rwa [hlast]

/-- The real rounds to the number. -/
def Holds (i : RoundingInterval) (x : ℚ) : Prop :=
  if i.closed then i.low ≤ x * i.denominator ∧ x * i.denominator ≤ i.high
  else i.low < x * i.denominator ∧ x * i.denominator < i.high

theorem contains_iff (hd : 0 < d) : i.contains n d = true ↔ i.Holds (n / d) := by
  have hpos : (0 : ℚ) < d := by exact_mod_cast hd
  have hscale : (n / d : ℚ) * i.denominator = ((n * i.denominator : Nat) : ℚ) / d := by
    push_cast
    ring
  unfold contains Holds
  rw [hscale]
  split <;> simp only [Bool.and_eq_true, decide_eq_true_eq, le_div_iff₀ hpos, div_le_iff₀ hpos, lt_div_iff₀ hpos,
    div_lt_iff₀ hpos] <;> norm_cast

/-- Zero is too small. -/
theorem Wide.pos_of_contains (h : i.Wide) (hd : 0 < d) (hin : i.contains n d = true) : 0 < n := by
  refine Nat.pos_of_ne_zero fun hzero => ?_
  have hlow : 0 < i.low * d := Nat.mul_pos h.low_pos hd
  subst hzero
  rw [contains, Nat.zero_mul] at hin
  split at hin <;> simp only [Bool.and_eq_true, decide_eq_true_eq] at hin <;> omega

end RoundingInterval

namespace Binary64

/-- A finite non-zero double has a significand of at most 53 bits. -/
theorem significand_ofBits {bits : UInt64} (h : Decimal.IsFiniteNonzero bits) :
    0 < (ofBits bits).significand ∧ (ofBits bits).significand < 2 * binade := by
  obtain ⟨-, hnonzero⟩ := h
  have hfraction : fractionBits bits < binade := Nat.mod_lt _ (by decide)
  have hbinade : 0 < binade := by decide
  unfold ofBits
  dsimp only
  split
  · next hstored =>
    have : fractionBits bits ≠ 0 := fun hzero => hnonzero ⟨hstored, hzero⟩
    constructor <;> dsimp only <;> omega
  · constructor <;> dsimp only <;> omega

end Binary64

namespace Decimal

/-! ## Digits of the decimal -/

theorem natOfDigits_append (ds ds' : List (Fin 10)) :
    natOfDigits (ds ++ ds') = 10 ^ ds'.length * natOfDigits ds + natOfDigits ds' := by
  simp only [← natOfChars_digitChars, digitChars_append, natOfChars_append, length_digitChars]

theorem digitChars_digitsOfNat (n : Nat) : digitChars (digitsOfNat n) = Nat.toDigits 10 n := by
  rw [digitChars, digitsOfNat, List.map_map]
  conv => rhs; rw [← List.map_id (Nat.toDigits 10 n)]
  refine List.map_congr_left fun c hc => ?_
  obtain ⟨hlow, hhigh⟩ := isDigit_bounds (Nat.isDigit_of_mem_toDigits (by decide) (by decide) hc)
  have hval : (Fin.ofNat 10 (c.toNat - 48)).val = c.toNat - 48 := Nat.mod_eq_of_lt (by omega)
  rw [Function.comp_apply, digitChar, hval, Nat.add_sub_cancel' hlow, Char.ofNat_toNat, id]

theorem natOfDigits_digitsOfNat (n : Nat) : natOfDigits (digitsOfNat n) = n := by
  rw [← natOfChars_digitChars, digitChars_digitsOfNat, natOfChars_toDigits]

/-- Zeros at the end only scale the number. -/
theorem natOfDigits_dropTrailingZeros (ds : List (Fin 10)) : ∃ k,
    ds.length = (dropTrailingZeros ds).length + k ∧ natOfDigits ds = 10 ^ k * natOfDigits (dropTrailingZeros ds) := by
  let zeros := ds.reverse.takeWhile fun d => d.val == 0
  have hzeros : zeros = List.replicate zeros.length 0 := List.eq_replicate_of_mem fun d hd => by
    simpa using List.mem_takeWhile_imp hd
  have hsplit : ds = dropTrailingZeros ds ++ List.replicate zeros.length 0 := by
    rw [dropTrailingZeros, ← List.reverse_replicate, ← hzeros, ← List.reverse_append, List.takeWhile_append_dropWhile,
      List.reverse_reverse]
  have hnone : natOfDigits (List.replicate zeros.length 0) = 0 := by
    rw [← natOfChars_digitChars, digitChars, List.map_replicate]
    exact natOfChars_replicate _
  refine ⟨zeros.length, ?_, ?_⟩
  · conv => lhs; rw [hsplit]
    simp
  · conv => lhs; rw [hsplit]
    rw [natOfDigits_append, hnone]
    simp

/-! ## Texts of doubles -/

/-- **Every finite non-zero double has a shortest decimal**: it has digits, and rounds to the double. -/
theorem shortest_rounds {bits : UInt64} (h : IsFiniteNonzero bits) : (shortest bits).digits ≠ [] ∧ ∃ x : ℚ,
    (RoundingInterval.ofBinary64 (Binary64.ofBits bits)).Holds x ∧
      (shortest bits).value = (if Binary64.isNegative bits then -1 else 1) * x := by
  obtain ⟨hpos, hlt⟩ := Binary64.significand_ofBits h
  have hwide := RoundingInterval.wide_ofBinary64 hpos hlt
  have hhit := hwide.onGrid_search
  unfold shortest
  dsimp only
  generalize RoundingInterval.ofBinary64 (Binary64.ofBits bits) = i at *
  generalize i.search i.magnitude 17 1 = hit at *
  obtain ⟨n, power⟩ := hit
  have hin := RoundingInterval.contains_of_onGrid hhit
  have hdown : 0 < 10 ^ (-power).toNat := Nat.pow_pos (by decide)
  have hn : n ≠ 0 := fun hzero => by
    have hscaled := hwide.pos_of_contains hdown hin
    simp [hzero] at hscaled
  obtain ⟨k, hlength, hdigits⟩ := natOfDigits_dropTrailingZeros (digitsOfNat n)
  rw [natOfDigits_digitsOfNat] at hdigits
  refine ⟨fun hnil => hn ?_, _, (RoundingInterval.contains_iff hdown).1 hin, ?_⟩
  · rw [hdigits, hnil]
    rfl
  · have hscale : power + (digitsOfNat n).length - 1 - (dropTrailingZeros (digitsOfNat n)).length + 1 =
        (k : Int) + ((power.toNat : Int) - ((-power).toNat : Int)) := by omega
    rw [value, hscale, zpow_add₀ (by norm_num), zpow_sub₀ (by norm_num), zpow_natCast, zpow_natCast, zpow_natCast]
    conv => rhs; rw [hdigits]
    push_cast
    ring

/-- **The text of a finite non-zero double denotes a number that rounds to it.** -/
theorem renderFloat_rounds (x : Float) (h : IsFiniteNonzero x.toBits) : ∃ y : ℚ,
    (RoundingInterval.ofBinary64 (Binary64.ofBits x.toBits)).Holds y ∧
      literal? (renderFloat x).toList = some ((if Binary64.isNegative x.toBits then -1 else 1) * y) := by
  obtain ⟨hne, y, hholds, hvalue⟩ := shortest_rounds h
  refine ⟨y, hholds, ?_⟩
  rw [renderFloat_eq h, literal?_render hne, hvalue]

end Decimal

end Specializer
