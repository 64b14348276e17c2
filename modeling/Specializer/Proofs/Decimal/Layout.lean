import Mathlib.Algebra.Field.Rat
import Mathlib.Algebra.GroupWithZero.Units.Basic
import Mathlib.Tactic.NormNum
import Mathlib.Tactic.Ring
import Specializer.Decimal.Reader

/-!
# What a decimal text denotes

A decimal is laid out in one of three ways, and zeros and a point are put where its exponent says. Read back without
rounding (`literal?`), the text denotes the number that was written (`render_denotes`).

The reader of the library rounds at the end. Up to there it does what `scan?` does (`readUnsigned?_eq`): it takes all
digits together as a whole number, and counts those behind the point off the exponent.
-/

namespace Specializer.Decimal

/-! ## Exact numbers -/

/-- The number: its digits as a whole number, the first of them standing for a multiple of `10^exponent`. -/
def value (d : Decimal) : ℚ :=
  (if d.negative then -1 else 1) * natOfDigits d.digits * 10 ^ (d.exponent - d.digits.length + 1)

/-- What may follow the digits: nothing, or an exponent after its mark. -/
def scanExponent? : List Char → Option Int
  | [] => some 0
  | mark :: rest => if mark = 'e' ∨ mark = 'E' then readExponent? rest else none

/-- The digits behind a point, and what follows them; no digits without a point. -/
def spanFraction : List Char → List Char × List Char
  | '.' :: rest => (rest.takeWhile Char.isDigit, rest.dropWhile Char.isDigit)
  | rest => ([], rest)

/-- An unsigned number as a whole number and the power of ten that scales it. -/
def scan? (cs : List Char) : Option (Nat × Int) :=
  let whole := cs.takeWhile Char.isDigit
  let (fraction, afterFraction) := spanFraction (cs.dropWhile Char.isDigit)
  if whole.isEmpty && fraction.isEmpty then none
  else (scanExponent? afterFraction).map fun exponent => (natOfChars (whole ++ fraction), exponent - fraction.length)

/-- The number a text denotes, not rounded. -/
def literal? (cs : List Char) : Option ℚ :=
  let (negative, rest) := splitSign cs
  (scan? rest).map fun (significand, exponent) => (if negative then -1 else 1) * significand * 10 ^ exponent

/-- The reader scans, and then takes the nearest double. -/
theorem readUnsigned?_eq (negative : Bool) (cs : List Char) :
    readUnsigned? negative cs = (scan? cs).map fun (significand, exponent) => nearest negative significand exponent := by
  unfold readUnsigned? scan?
  dsimp only
  rw [apply_ite (Option.map _), Option.map_none, Option.map_map]
  rfl

/-! ## Digits -/

theorem isDigit_bounds {c : Char} (h : c.isDigit = true) : 48 ≤ c.toNat ∧ c.toNat ≤ 57 := by
  obtain ⟨hlow, hhigh⟩ := Bool.and_eq_true_iff.1 h
  exact ⟨UInt32.le_iff_toNat_le.1 (of_decide_eq_true hlow), UInt32.le_iff_toNat_le.1 (of_decide_eq_true hhigh)⟩

theorem isDigit_digitChar (d : Fin 10) : (digitChar d).isDigit = true := by
  revert d
  decide

theorem isDigit_of_mem_digitChars {ds : List (Fin 10)} : ∀ c ∈ digitChars ds, c.isDigit = true := by
  intro c hc
  obtain ⟨d, -, rfl⟩ := List.mem_map.1 hc
  exact isDigit_digitChar d

@[simp] theorem length_digitChars (ds : List (Fin 10)) : (digitChars ds).length = ds.length := List.length_map _

theorem digitChars_append (ds ds' : List (Fin 10)) : digitChars (ds ++ ds') = digitChars ds ++ digitChars ds' :=
  List.map_append

@[simp] theorem digitChars_eq_nil {ds : List (Fin 10)} : digitChars ds = [] ↔ ds = [] := List.map_eq_nil_iff

theorem isDigit_of_mem_replicate {k : Nat} : ∀ c ∈ List.replicate k '0', c.isDigit = true := by
  intro c hc
  rw [List.eq_of_mem_replicate hc]
  decide

theorem natOfChars_append (cs ds : List Char) : natOfChars (cs ++ ds) = 10 ^ ds.length * natOfChars cs + natOfChars ds :=
  (Nat.ofDigitChars_append 0).trans Nat.ofDigitChars_eq_ofDigitChars_zero

theorem natOfChars_replicate (k : Nat) : natOfChars (List.replicate k '0') = 0 :=
  Nat.ofDigitChars_replicate_zero.trans (Nat.mul_zero _)

theorem natOfChars_toDigits (n : Nat) : natOfChars (Nat.toDigits 10 n) = n := Nat.ofDigitChars_ten_toDigits

theorem natOfChars_digitChars (ds : List (Fin 10)) : natOfChars (digitChars ds) = natOfDigits ds := by
  have hdigit : ∀ d : Fin 10, (digitChar d).toNat - 48 = d.val := by decide
  simp only [natOfChars, natOfDigits, digitChars, List.foldl_map, hdigit]

/-! ## Scanning -/

section Scanning

variable {whole fraction rest : List Char} {exponent : Int}

/-- The digits in front of something else are found, and nothing more. -/
theorem span_digits (hdigits : ∀ c ∈ whole, c.isDigit = true) (hrest : ∀ c ∈ rest.head?, c.isDigit = false) :
    (whole ++ rest).takeWhile Char.isDigit = whole ∧ (whole ++ rest).dropWhile Char.isDigit = rest := by
  have hstop : rest.takeWhile Char.isDigit = [] ∧ rest.dropWhile Char.isDigit = rest := by
    cases rest with
    | nil => exact ⟨rfl, rfl⟩
    | cons c cs => simp [hrest c rfl]
  rw [List.takeWhile_append_of_pos hdigits, List.dropWhile_append_of_pos hdigits, hstop.1, hstop.2, List.append_nil]
  exact ⟨rfl, rfl⟩

/-- What follows the digits starts neither with a digit nor with a point. -/
theorem head_of_scanExponent? (h : scanExponent? rest = some exponent) :
    ∀ c ∈ rest.head?, c.isDigit = false ∧ c ≠ '.' := by
  cases rest with
  | nil => nofun
  | cons mark cs =>
    rw [scanExponent?] at h
    split at h
    · next hmark =>
      rintro c ⟨⟩
      rcases hmark with rfl | rfl <;> decide
    · cases h

theorem scan?_whole (hwhole : ∀ c ∈ whole, c.isDigit = true) (hne : whole ≠ [])
    (hrest : scanExponent? rest = some exponent) : scan? (whole ++ rest) = some (natOfChars whole, exponent) := by
  have hhead := head_of_scanExponent? hrest
  obtain ⟨htake, hdrop⟩ := span_digits hwhole fun c hc => (hhead c hc).1
  have hfraction : spanFraction rest = ([], rest) := by
    unfold spanFraction
    split
    · exact absurd rfl (hhead '.' rfl).2
    · rfl
  unfold scan?
  rw [htake, hdrop, hfraction]
  simp [hne, hrest]

theorem scan?_point (hwhole : ∀ c ∈ whole, c.isDigit = true) (hne : whole ≠ [])
    (hfraction : ∀ c ∈ fraction, c.isDigit = true) (hrest : scanExponent? rest = some exponent) :
    scan? (whole ++ '.' :: (fraction ++ rest)) =
      some (natOfChars (whole ++ fraction), exponent - fraction.length) := by
  have hpoint : ∀ c ∈ ('.' :: (fraction ++ rest)).head?, c.isDigit = false := by
    rintro c ⟨⟩
    rfl
  obtain ⟨htake, hdrop⟩ := span_digits hwhole hpoint
  obtain ⟨htake', hdrop'⟩ := span_digits hfraction fun c hc => (head_of_scanExponent? hrest c hc).1
  have hspan : spanFraction ('.' :: (fraction ++ rest)) = (fraction, rest) := by rw [spanFraction, htake', hdrop']
  unfold scan?
  rw [htake, hdrop, hspan]
  simp [hne, hrest]

theorem readExponent?_signed (hwhole : ∀ c ∈ whole, c.isDigit = true) (hne : whole ≠ []) :
    readExponent? ('-' :: whole) = some (-(natOfChars whole : Int)) ∧
      readExponent? ('+' :: whole) = some (natOfChars whole : Int) := by
  have hall : whole.all Char.isDigit = true := List.all_eq_true.2 hwhole
  simp [readExponent?, splitSign, hall, hne]

/-- The exponent that is written is the one that is read. -/
theorem scanExponent?_exponentText (exponent : Int) : scanExponent? (exponentText exponent) = some exponent := by
  have key {magnitude : List Char} (hdigits : ∀ c ∈ magnitude, c.isDigit = true) (hne : magnitude ≠ [])
      (hvalue : natOfChars magnitude = exponent.natAbs) :
      scanExponent? ('e' :: (if exponent < 0 then '-' else '+') :: magnitude) = some exponent := by
    obtain ⟨hminus, hplus⟩ := readExponent?_signed hdigits hne
    rw [scanExponent?, if_pos (.inl rfl)]
    split
    · rw [hminus, hvalue, Int.ofNat_natAbs_of_nonpos (by omega), Int.neg_neg]
    · rw [hplus, hvalue, Int.natAbs_of_nonneg (by omega)]
  have hdigits : ∀ c ∈ Nat.toDigits 10 exponent.natAbs, c.isDigit = true := fun c hc =>
    Nat.isDigit_of_mem_toDigits (by decide) (by decide) hc
  have hvalue : natOfChars (Nat.toDigits 10 exponent.natAbs) = exponent.natAbs := natOfChars_toDigits _
  simp only [exponentText]
  by_cases hshort : (Nat.toDigits 10 exponent.natAbs).length < 2
  · rw [if_pos hshort]
    exact key (List.forall_mem_cons.2 ⟨rfl, hdigits⟩) (by simp) hvalue
  · rw [if_neg hshort]
    exact key hdigits Nat.toDigits_ne_nil hvalue

end Scanning

/-! ## Layouts -/

section Layouts

variable {digits : List (Fin 10)} {exponent : Int}

/-- Below one there are zeros in front of the digits. -/
theorem layout_small (hexponent : usesExponent exponent = false) (hneg : exponent < 0) : layout digits exponent =
    ['0'] ++ '.' :: (List.replicate (exponent.natAbs - 1) '0' ++ digitChars digits ++ []) := by
  rw [layout, if_neg (by simp [hexponent]), if_pos hneg, List.append_nil]
  rfl

/-- The point may stand among the digits. -/
theorem layout_inside (hexponent : usesExponent exponent = false) (hpos : 0 ≤ exponent)
    (hlong : exponent.toNat + 1 < digits.length) : layout digits exponent =
      digitChars (digits.take (exponent.toNat + 1)) ++ '.' :: (digitChars (digits.drop (exponent.toNat + 1)) ++ []) := by
  rw [layout, if_neg (by simp [hexponent]), if_neg (by omega), if_pos hlong, List.append_nil]

/-- Else there are zeros behind the digits up to the point, and one after it. -/
theorem layout_padded (hexponent : usesExponent exponent = false) (hpos : 0 ≤ exponent)
    (hshort : digits.length ≤ exponent.toNat + 1) : layout digits exponent =
      digitChars digits ++ List.replicate (exponent.toNat + 1 - digits.length) '0' ++ '.' :: (['0'] ++ []) := by
  rw [layout, if_neg (by simp [hexponent]), if_neg (by omega), if_neg (by omega)]
  rfl

/-- With an exponent the point stands behind the first digit, if there is another one. -/
theorem scan?_layout_exponent (hne : digits ≠ []) (hexponent : usesExponent exponent = true) :
    scan? (layout digits exponent) = some (natOfDigits digits, exponent - digits.length + 1) := by
  have htail := scanExponent?_exponentText exponent
  match digits, hne with
  | [d], _ =>
    have htext : layout [d] exponent = digitChars [d] ++ exponentText exponent := by
      rw [layout, if_pos hexponent]
      rfl
    rw [htext, scan?_whole isDigit_of_mem_digitChars (by simp) htail, natOfChars_digitChars]
    simp
  | d :: r :: rs, _ =>
    have htext : layout (d :: r :: rs) exponent =
        digitChars [d] ++ '.' :: (digitChars (r :: rs) ++ exponentText exponent) := by
      rw [layout, if_pos hexponent]
      rfl
    rw [htext, scan?_point isDigit_of_mem_digitChars (by simp) isDigit_of_mem_digitChars htail,
      ← digitChars_append, natOfChars_digitChars]
    simp
    omega

theorem scan?_layout_small (hexponent : usesExponent exponent = false) (hneg : exponent < 0) :
    scan? (layout digits exponent) = some (natOfDigits digits, exponent - digits.length + 1) := by
  have hdigits : ∀ c ∈ List.replicate (exponent.natAbs - 1) '0' ++ digitChars digits, c.isDigit = true :=
    List.forall_mem_append.2 ⟨isDigit_of_mem_replicate, isDigit_of_mem_digitChars⟩
  have hvalue : natOfChars (['0'] ++ (List.replicate (exponent.natAbs - 1) '0' ++ digitChars digits)) =
      natOfDigits digits := by
    rw [← List.append_assoc, natOfChars_append, natOfChars_append, natOfChars_replicate, natOfChars_digitChars]
    simp [natOfChars]
  rw [layout_small hexponent hneg, scan?_point (by simp) (by simp) hdigits rfl, hvalue]
  simp
  omega

theorem scan?_layout_inside (hexponent : usesExponent exponent = false) (hpos : 0 ≤ exponent)
    (hlong : exponent.toNat + 1 < digits.length) :
    scan? (layout digits exponent) = some (natOfDigits digits, exponent - digits.length + 1) := by
  have hne : digitChars (digits.take (exponent.toNat + 1)) ≠ [] := by
    rw [Ne, digitChars_eq_nil, List.take_eq_nil_iff, ← List.length_eq_zero_iff]
    omega
  rw [layout_inside hexponent hpos hlong, scan?_point isDigit_of_mem_digitChars hne isDigit_of_mem_digitChars rfl,
    ← digitChars_append, List.take_append_drop, natOfChars_digitChars]
  simp
  omega

theorem scan?_layout_padded (hne : digits ≠ []) (hexponent : usesExponent exponent = false) (hpos : 0 ≤ exponent)
    (hshort : digits.length ≤ exponent.toNat + 1) : scan? (layout digits exponent) =
      some (10 ^ (exponent.toNat + 2 - digits.length) * natOfDigits digits, -1) := by
  have hdigits : ∀ c ∈ digitChars digits ++ List.replicate (exponent.toNat + 1 - digits.length) '0', c.isDigit = true :=
    List.forall_mem_append.2 ⟨isDigit_of_mem_digitChars, isDigit_of_mem_replicate⟩
  have hvalue : natOfChars (digitChars digits ++ List.replicate (exponent.toNat + 1 - digits.length) '0' ++ ['0']) =
      10 ^ (exponent.toNat + 2 - digits.length) * natOfDigits digits := by
    have hlast : natOfChars ['0'] = 0 := rfl
    have hlen : exponent.toNat + 2 - digits.length = exponent.toNat + 1 - digits.length + 1 := by omega
    rw [natOfChars_append, natOfChars_append, natOfChars_replicate, natOfChars_digitChars, hlast, hlen, Nat.pow_succ']
    simp [Nat.mul_assoc]
  rw [layout_padded hexponent hpos hshort, scan?_point hdigits (by simp [hne]) (by simp) rfl, hvalue]
  simp

/-- **A layout denotes the digits, scaled by its exponent.** -/
theorem scan?_layout (hne : digits ≠ []) (exponent : Int) : ∃ significand scale,
    scan? (layout digits exponent) = some (significand, scale) ∧
      (significand : ℚ) * 10 ^ scale = natOfDigits digits * 10 ^ (exponent - digits.length + 1) := by
  cases hexponent : usesExponent exponent with
  | true => exact ⟨_, _, scan?_layout_exponent hne hexponent, rfl⟩
  | false =>
    by_cases hneg : exponent < 0
    · exact ⟨_, _, scan?_layout_small hexponent hneg, rfl⟩
    by_cases hlong : exponent.toNat + 1 < digits.length
    · exact ⟨_, _, scan?_layout_inside hexponent (by omega) hlong, rfl⟩
    · refine ⟨_, _, scan?_layout_padded hne hexponent (by omega) (by omega), ?_⟩
      have hscale : exponent - digits.length + 1 = ((exponent.toNat + 2 - digits.length : Nat) : Int) + -1 := by omega
      rw [hscale, zpow_add₀ (by norm_num), zpow_natCast]
      push_cast
      ring

theorem mark_mem_layout (hexponent : usesExponent exponent = true) : 'e' ∈ layout digits exponent := by
  rw [layout, if_pos hexponent]
  split <;> simp [exponentText]

/-- Without an exponent there is a point, and nothing else but digits. -/
theorem mem_layout (hexponent : usesExponent exponent = false) :
    '.' ∈ layout digits exponent ∧ ∀ c ∈ layout digits exponent, c.isDigit = true ∨ c = '.' := by
  have key {whole fraction : List Char} (hwhole : ∀ c ∈ whole, c.isDigit = true)
      (hfraction : ∀ c ∈ fraction, c.isDigit = true) :
      '.' ∈ whole ++ '.' :: (fraction ++ []) ∧
        ∀ c ∈ whole ++ '.' :: (fraction ++ []), c.isDigit = true ∨ c = '.' := by
    refine ⟨by simp, fun c hc => ?_⟩
    rw [List.append_nil, List.mem_append, List.mem_cons] at hc
    rcases hc with hc | rfl | hc
    · exact .inl (hwhole c hc)
    · exact .inr rfl
    · exact .inl (hfraction c hc)
  by_cases hneg : exponent < 0
  · rw [layout_small hexponent hneg]
    exact key (by simp) (List.forall_mem_append.2 ⟨isDigit_of_mem_replicate, isDigit_of_mem_digitChars⟩)
  by_cases hlong : exponent.toNat + 1 < digits.length
  · rw [layout_inside hexponent (by omega) hlong]
    exact key isDigit_of_mem_digitChars isDigit_of_mem_digitChars
  · rw [layout_padded hexponent (by omega) (by omega)]
    exact key (List.forall_mem_append.2 ⟨isDigit_of_mem_digitChars, isDigit_of_mem_replicate⟩) (by simp)

end Layouts

section Reading

variable {cs : List Char} {x : Nat × Int}

/-- What can be scanned starts with a digit or a point. -/
theorem head_of_scan? (h : scan? cs = some x) : ∃ c rest, cs = c :: rest ∧ (c.isDigit = true ∨ c = '.') := by
  cases cs with
  | nil => cases h
  | cons c rest =>
    refine ⟨c, rest, rfl, or_iff_not_imp_left.2 fun hdigit => ?_⟩
    by_contra hpoint
    simp [scan?, spanFraction, hdigit, hpoint] at h

theorem splitSign_of_scan? (h : scan? cs = some x) : splitSign cs = (false, cs) := by
  obtain ⟨c, rest, rfl, hc⟩ := head_of_scan? h
  unfold splitSign
  split
  · next heq => obtain ⟨rfl, -⟩ := List.cons.inj heq; simp at hc
  · next heq => obtain ⟨rfl, -⟩ := List.cons.inj heq; simp at hc
  · rfl

theorem toLower_eq_self {c : Char} (h : c.isDigit = true ∨ c = '.') : c.toLower = c := by
  refine dif_neg fun hupper => ?_
  have hlow : 65 ≤ c.toNat := UInt32.le_iff_toNat_le.1 hupper.1
  rcases h with hdigit | rfl
  · have hhigh := (isDigit_bounds hdigit).2
    omega
  · exact absurd hlow (by decide)

/-- The names of infinity and of no number cannot be scanned. -/
theorem map_toLower_ne (h : scan? cs = some x) {first : Char} {others : List Char}
    (hfirst : first.isDigit = false ∧ first ≠ '.') : cs.map Char.toLower ≠ first :: others := by
  obtain ⟨c, rest, rfl, hc⟩ := head_of_scan? h
  intro heq
  obtain rfl : c = first := (toLower_eq_self hc).symm.trans (List.cons.inj heq).1
  exact hc.elim (by simp [hfirst.1]) hfirst.2

variable {d : Decimal}

theorem splitSign_render (h : scan? (layout d.digits d.exponent) = some x) :
    splitSign d.render.toList = (d.negative, layout d.digits d.exponent) := by
  rw [render, String.toList_ofList]
  cases d.negative with
  | true => rfl
  | false => exact splitSign_of_scan? h

/-- The text denotes the number. -/
theorem literal?_render (hne : d.digits ≠ []) : literal? d.render.toList = some d.value := by
  obtain ⟨significand, scale, hscan, hvalue⟩ := scan?_layout hne d.exponent
  simp only [literal?, splitSign_render hscan, hscan, Option.map_some, value, mul_assoc, hvalue]

/-- Reading the text takes the double nearest to the number. -/
theorem readFloat?_render (hne : d.digits ≠ []) : ∃ significand scale,
    readFloat? d.render.toList = some (nearest d.negative significand scale) ∧
      d.value = (if d.negative then -1 else 1) * (significand * 10 ^ scale) := by
  obtain ⟨significand, scale, hscan, hvalue⟩ := scan?_layout hne d.exponent
  have hword {word : String} {first : Char} {others : List Char} (htext : word.toList = first :: others)
      (hfirst : first.isDigit = false ∧ first ≠ '.') :
      String.ofList ((layout d.digits d.exponent).map Char.toLower) ≠ word := fun e =>
    map_toLower_ne hscan hfirst (htext ▸ e ▸ String.toList_ofList.symm)
  refine ⟨significand, scale, ?_, by rw [hvalue, value, mul_assoc]⟩
  unfold readFloat?
  simp only [splitSign_render hscan]
  rw [if_neg (not_or.2 ⟨hword rfl (by decide), hword rfl (by decide)⟩), if_neg (hword rfl (by decide)),
    readUnsigned?_eq, hscan]
  rfl

end Reading

theorem mem_render {d : Decimal} {c : Char} (hc : c ≠ '-') : c ∈ d.render.toList ↔ c ∈ layout d.digits d.exponent := by
  rw [render, String.toList_ofList, List.mem_append]
  refine or_iff_right fun hsign => ?_
  split at hsign
  · exact hc (List.mem_singleton.1 hsign)
  · cases hsign

theorem usesExponent_iff {exponent : Int} : usesExponent exponent = true ↔ exponent < -4 ∨ 16 ≤ exponent := by
  simp [usesExponent]

/-- The bits are those of a double that is neither zero nor infinite nor no number at all. -/
def IsFiniteNonzero (bits : UInt64) : Prop :=
  Binary64.exponentBits bits ≠ 2047 ∧ ¬ (Binary64.exponentBits bits = 0 ∧ Binary64.fractionBits bits = 0)

/-- The text of a finite non-zero double is that of its shortest decimal. -/
theorem renderFloat_eq {x : Float} (h : IsFiniteNonzero x.toBits) : renderFloat x = (shortest x.toBits).render := by
  simp only [renderFloat]
  rw [if_neg h.1, if_neg h.2]

/-- **The text of a decimal denotes it.** Whatever the sign, the digits and the exponent are, reading the text gives the
same number; there is a point or an exponent in it, and an exponent just outside of the range from `-4` to `15`. A
double whose shortest decimal it is has this text. -/
theorem render_denotes (d : Decimal) (hne : d.digits ≠ []) :
    literal? d.render.toList = some d.value ∧ ('.' ∈ d.render.toList ∨ 'e' ∈ d.render.toList) ∧
      ('e' ∈ d.render.toList ↔ d.exponent < -4 ∨ 16 ≤ d.exponent) ∧
      ∀ x : Float, IsFiniteNonzero x.toBits → shortest x.toBits = d → renderFloat x = d.render := by
  refine ⟨literal?_render hne, ?_, ?_, ?_⟩
  · rw [mem_render (by decide), mem_render (by decide)]
    cases hexponent : usesExponent d.exponent with
    | true => exact .inr (mark_mem_layout hexponent)
    | false => exact .inl (mem_layout hexponent).1
  · rw [mem_render (by decide), ← usesExponent_iff]
    cases hexponent : usesExponent d.exponent with
    | true => exact iff_of_true (mark_mem_layout hexponent) rfl
    | false =>
      refine iff_of_false (fun hmark => ?_) nofun
      rcases (mem_layout hexponent).2 'e' hmark with hdigit | hpoint
      · cases hdigit
      · cases hpoint
  · rintro x h rfl
    exact renderFloat_eq h

/-- The first exponent that is written out, with more than one digit. -/
theorem render_denotes_first_exponent :
    ([1, 5] : List (Fin 10)) ≠ [] ∧ (Decimal.mk true [1, 5] 16).render = "-1.5e+16" ∧
      literal? "-1.5e+16".toList = some (-15000000000000000) := by
  have hne : ([1, 5] : List (Fin 10)) ≠ [] := by decide
  have htext : (Decimal.mk true [1, 5] 16).render = "-1.5e+16" := by decide +kernel
  have hread := (render_denotes (Decimal.mk true [1, 5] 16) hne).1
  rw [htext] at hread
  have hdigits : natOfDigits [1, 5] = 15 := rfl
  refine ⟨hne, htext, hread.trans (congrArg some ?_)⟩
  norm_num [value, hdigits]

end Specializer.Decimal
