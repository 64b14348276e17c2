import Mathlib.Data.Nat.Digits.Defs
import Mathlib.Data.List.Forall2
import Mathlib.Data.List.TakeWhile
import Mathlib.Tactic.Ring
import Specializer.IntegerLiteral

/-!
# What integer literals denote

The grammar of integer literals, stated without the function that reads them: `Denotes version base literal v` says that
a literal without blanks around it is one of the given base, and that its exact value is `v`. A literal has at most one
value (`Denotes.unique`).

Reading decides the grammar (`read_exact`): it gives the value of a literal if the value fits 64 bits, is undecided if the
value does not fit, and calls everything else malformed. Text that holds an underscore or a character beyond ASCII is
always undecided.
-/

namespace Specializer

/-! ## Blanks around a text -/

/-- `core` is what remains of a text without the blanks around it. -/
structure Text.IsTrimmed (text core : List Char) : Prop where
  around : ∃ before after, text = before ++ core ++ after ∧ (∀ c ∈ before, isBlank c = true) ∧
    ∀ c ∈ after, isBlank c = true
  head : ∀ c, core.head? = some c → isBlank c = false
  last : ∀ c, core.getLast? = some c → isBlank c = false

/-- Dropping from the front stops at the first character that stays. -/
theorem Text.trimStart_append {before core : List Char} (hbefore : ∀ c ∈ before, isBlank c = true)
    (hhead : ∀ c, core.head? = some c → isBlank c = false) : trimStart (before ++ core) = core := by
  induction before with
  | nil =>
    cases core with
    | nil => rfl
    | cons c core => exact List.dropWhile_cons_of_neg (by simp [hhead c rfl])
  | cons b before ih =>
    have hb : isBlank b = true := hbefore b (by simp)
    have hrest : trimStart (before ++ core) = core := ih fun c hc => hbefore c (by simp [hc])
    exact (List.dropWhile_cons_of_pos hb).trans hrest

theorem Text.trimEnd_append {core after : List Char} (hafter : ∀ c ∈ after, isBlank c = true)
    (hlast : ∀ c, core.getLast? = some c → isBlank c = false) : trimEnd (core ++ after) = core := by
  have hreverse : trimStart (after.reverse ++ core.reverse) = core.reverse := by
    apply trimStart_append
    · intro c hc
      exact hafter c (List.mem_reverse.1 hc)
    · intro c hc
      rw [List.head?_reverse] at hc
      exact hlast c hc
  calc trimEnd (core ++ after) = (trimStart (core ++ after).reverse).reverse := rfl
    _ = core := by rw [List.reverse_append, hreverse, List.reverse_reverse]

/-- The blanks around a text can be told in one way only. -/
theorem Text.IsTrimmed.trim_eq {text core : List Char} (h : IsTrimmed text core) : trim text = core := by
  obtain ⟨before, after, rfl, hbefore, hafter⟩ := h.around
  cases core with
  | nil =>
    have hblank : ∀ c ∈ before ++ after, isBlank c = true := by
      intro c hc
      rcases List.mem_append.1 hc with hc | hc
      · exact hbefore c hc
      · exact hafter c hc
    have hnone : trimStart ((before ++ after) ++ []) = [] := trimStart_append hblank (by simp)
    rw [List.append_nil] at hnone
    rw [List.append_nil, trim, hnone]
    rfl
  | cons c core =>
    have hstart : trimStart (before ++ (c :: core ++ after)) = c :: core ++ after :=
      trimStart_append hbefore h.head
    rw [List.append_assoc, trim, hstart, trimEnd_append hafter h.last]

theorem Text.exists_trimStart (text : List Char) : ∃ before, text = before ++ trimStart text ∧
    (∀ c ∈ before, isBlank c = true) ∧ ∀ c, (trimStart text).head? = some c → isBlank c = false := by
  refine ⟨text.takeWhile isBlank, List.takeWhile_append_dropWhile.symm, fun c hc => List.mem_takeWhile_imp hc,
    fun c hc => ?_⟩
  have hnot := List.head?_dropWhile_not isBlank text
  rw [show text.dropWhile isBlank = trimStart text from rfl, hc] at hnot
  simpa using hnot

/-- Dropping the blanks on both sides leaves what remains without them. -/
theorem Text.isTrimmed_trim (text : List Char) : IsTrimmed text (trim text) := by
  obtain ⟨before, hbefore, hblank, hhead⟩ := exists_trimStart text
  obtain ⟨after, hafter, hblank', hlast⟩ := exists_trimStart (trimStart text).reverse
  have hsplit : trimStart text = trim text ++ after.reverse := by
    rw [← List.reverse_reverse (trimStart text), hafter, List.reverse_append]
    rfl
  refine ⟨⟨before, after.reverse, ?_, hblank, fun c hc => hblank' c (List.mem_reverse.1 hc)⟩, fun c hc => ?_, fun c hc => ?_⟩
  · rw [List.append_assoc, ← hsplit]
    exact hbefore
  · refine hhead c ?_
    rw [hsplit, List.head?_append, hc]
    rfl
  · refine hlast c ?_
    rw [← List.getLast?_reverse]
    exact hc

theorem Text.isTrimmed_self {text : List Char} (h : ∀ c ∈ text, isBlank c = false) : IsTrimmed text text where
  around := ⟨[], [], by simp, by simp, by simp⟩
  head c hc := h c (List.mem_of_head? hc)
  last c hc := h c (List.mem_of_getLast? hc)

namespace IntegerLiteral

/-! ## The grammar -/

/-- The digits of all radices in the order of their values. -/
def numerals : List Char :=
  ['0', '1', '2', '3', '4', '5', '6', '7', '8', '9', 'a', 'b', 'c', 'd', 'e', 'f', 'g', 'h', 'i', 'j', 'k', 'l', 'm', 'n',
    'o', 'p', 'q', 'r', 's', 't', 'u', 'v', 'w', 'x', 'y', 'z']

/-- A character is the digit of value `d` in a radix. Letters count in either case. -/
def IsDigit (radix : Nat) (c : Char) (d : Nat) : Prop := d < radix ∧ numerals[d]? = some c.toLower

/-- One or more digits of a radix denote a number, the most significant digit first. -/
def Spells (radix : Nat) (text : List Char) (n : Nat) : Prop :=
  text ≠ [] ∧ ∃ ds, List.Forall₂ (IsDigit radix) text ds ∧ n = Nat.ofDigits radix ds.reverse

/-- The letters that mark a radix after a zero. -/
inductive Marks : Char → Nat → Prop
  | hexadecimal : Marks 'x' 16
  | octal : Marks 'o' 8
  | binary : Marks 'b' 2

/-- Whether a decimal literal without a base may start as it does: in the older version a zero stands alone, in the newer
one only zeros follow it. -/
def MayLead : Version → List Char → Prop
  | .python2, text => text.head? = some '0' → text = ['0']
  | .python3, text => text.head? = some '0' → ∀ c ∈ text, c = '0'

/-- A literal without a sign denotes a number in a base, where base zero leaves the radix to the literal. -/
inductive Unsigned (version : Version) (base : Nat) : List Char → Nat → Prop
  /-- A prefix that suits the base. -/
  | marked {mark : Char} {radix : Nat} {digits : List Char} {n : Nat} : Marks mark.toLower radix →
      base = 0 ∨ base = radix → Spells radix digits n → Unsigned version base ('0' :: mark :: digits) n
  /-- Digits of the base. -/
  | plain {digits : List Char} {n : Nat} : base ≠ 0 → Spells base digits n → Unsigned version base digits n
  /-- Without a base, a decimal literal. -/
  | decimal {digits : List Char} {n : Nat} : base = 0 → Spells 10 digits n → MayLead version digits →
      Unsigned version base digits n
  /-- Without a base, the older version takes a zero in front of more characters as the mark of an octal literal. -/
  | zeroOctal {digits : List Char} {n : Nat} : base = 0 → version = .python2 → Spells 8 digits n →
      Unsigned version base ('0' :: digits) n

/-- A literal with an optional sign denotes an integer in a base. -/
inductive Denotes (version : Version) (base : Nat) : List Char → Int → Prop
  | bare {text : List Char} {n : Nat} : Unsigned version base text n → Denotes version base text n
  | plus {text : List Char} {n : Nat} : Unsigned version base text n → Denotes version base ('+' :: text) n
  | minus {text : List Char} {n : Nat} : Unsigned version base text n → Denotes version base ('-' :: text) (-n)

/-! ## Digits -/

section Digits

variable {radix n m d : Nat} {c : Char} {text : List Char}

theorem digitValue?_eq_some_iff : digitValue? c = some d ↔ numerals[d]? = some c := by
  have hdigits : ∀ i < 10, numerals[i]? = some (Char.ofNat (48 + i)) := by decide
  have hletters : ∀ i < 26, numerals[10 + i]? = some (Char.ofNat (97 + i)) := by decide
  have hback : ∀ i < 36, (numerals[i]?.bind digitValue?) = some i := by decide
  have hlength : numerals.length = 36 := rfl
  constructor
  · intro h
    unfold digitValue? at h
    split at h
    · next hc =>
      obtain ⟨hlow, hhigh⟩ : 48 ≤ c.toNat ∧ c.toNat ≤ 57 := hc
      obtain rfl : c.toNat - 48 = d := Option.some.inj h
      rw [hdigits _ (by omega), Nat.add_sub_cancel' hlow, Char.ofNat_toNat]
    · split at h
      · next hc =>
        obtain ⟨hlow, hhigh⟩ : 97 ≤ c.toNat ∧ c.toNat ≤ 122 := hc
        obtain rfl : c.toNat - 87 = d := Option.some.inj h
        have hposition : c.toNat - 87 = 10 + (c.toNat - 97) := by omega
        rw [hposition, hletters _ (by omega), Nat.add_sub_cancel' hlow, Char.ofNat_toNat]
      · cases h
  · intro h
    have hlt : d < 36 := hlength ▸ (List.getElem?_eq_some_iff.1 h).1
    have hvalue := hback d hlt
    rwa [h] at hvalue

theorem digitBelow?_eq_some_iff : digitBelow? radix c.toLower = some d ↔ IsDigit radix c d := by
  rw [digitBelow?, Option.filter_eq_some_iff, digitValue?_eq_some_iff, IsDigit, decide_eq_true_eq]
  exact and_comm

/-- What digits add to a number in front of them. -/
theorem valueFrom?_eq_some_iff : valueFrom? radix n (text.map Char.toLower) = some m ↔
    ∃ ds, List.Forall₂ (IsDigit radix) text ds ∧ m = radix ^ ds.length * n + Nat.ofDigits radix ds.reverse := by
  induction text generalizing n with
  | nil =>
    rw [List.map_nil, valueFrom?]
    constructor
    · intro h
      exact ⟨[], .nil, by simpa using (Option.some.inj h).symm⟩
    · rintro ⟨ds, hds, rfl⟩
      cases hds
      simp
  | cons c text ih =>
    rw [List.map_cons, valueFrom?]
    have hshift (d : Nat) (ds : List Nat) : radix ^ ds.length * (radix * n + d) + Nat.ofDigits radix ds.reverse =
        radix ^ (d :: ds).length * n + Nat.ofDigits radix (d :: ds).reverse := by
      rw [List.reverse_cons, Nat.ofDigits_append, List.length_reverse, Nat.ofDigits_singleton, List.length_cons,
        Nat.pow_succ]
      ring
    cases hdigit : digitBelow? radix c.toLower with
    | none =>
      constructor
      · nofun
      · rintro ⟨ds, hds, -⟩
        obtain _ | ⟨hc, -⟩ := hds
        rw [digitBelow?_eq_some_iff.2 hc] at hdigit
        cases hdigit
    | some d =>
      constructor
      · intro h
        obtain ⟨ds, hds, rfl⟩ := ih.1 h
        exact ⟨d :: ds, .cons (digitBelow?_eq_some_iff.1 hdigit) hds, hshift d ds⟩
      · rintro ⟨ds, hds, rfl⟩
        obtain _ | ⟨hc, hds⟩ := hds
        rw [digitBelow?_eq_some_iff.2 hc] at hdigit
        cases hdigit
        exact ih.2 ⟨_, hds, (hshift ..).symm⟩

theorem value?_eq_some_iff : value? radix (text.map Char.toLower) = some n ↔ Spells radix text n := by
  cases text with
  | nil => simp [value?, Spells]
  | cons c text =>
    have hsome : valueFrom? radix 0 ((c :: text).map Char.toLower) = some n ↔ _ := valueFrom?_eq_some_iff
    simpa [value?, Spells] using hsome

theorem Spells.isDigit (h : Spells radix text n) : ∀ c ∈ text, ∃ d, IsDigit radix c d := by
  obtain ⟨-, ds, hds, -⟩ := h
  induction hds with
  | nil => simp
  | cons hc _ ih => simpa using ⟨⟨_, hc⟩, ih⟩

end Digits

/-! ## Letters of either case -/

section Letters

variable {c c' : Char}

theorem toLower_cases (c : Char) :
    c.toLower = c ∨ 65 ≤ c.toNat ∧ c.toNat ≤ 90 ∧ c.toLower.toNat = c.toNat + 32 := by
  unfold Char.toLower
  split
  · next hc =>
    obtain ⟨hlow, hhigh⟩ : 65 ≤ c.toNat ∧ c.toNat ≤ 90 := hc
    refine .inr ⟨hlow, hhigh, ?_⟩
    have hadd : (c.val + ('a'.val - 'A'.val)).toNat = (c.toNat + 32) % 2 ^ 32 := UInt32.toNat_add ..
    exact hadd.trans (Nat.mod_eq_of_lt (by omega))
  · exact .inl rfl

/-- What is no letter has one form only. -/
theorem eq_of_toLower_eq (h : c.toLower = c') (hletter : c'.toNat < 97) : c = c' := by
  rcases toLower_cases c with hsame | ⟨hlow, -, hvalue⟩
  · exact hsame.symm.trans h
  · rw [h] at hvalue
    omega

/-- A character of a literal that is no sign: ASCII, but neither blank nor an underscore nor a sign. -/
def IsPlain (c : Char) : Prop :=
  c.toNat < 128 ∧ Text.isBlank c = false ∧ c ≠ '_' ∧ c ≠ '+' ∧ c ≠ '-'

instance : DecidablePred IsPlain := fun _ => inferInstanceAs (Decidable (_ ∧ _))

theorem isPlain_of_toLower (h : c.toLower ∈ numerals) : IsPlain c := by
  have hall : numerals.all (decide <| IsPlain ·) = true := by decide
  rcases toLower_cases c with hsame | ⟨hlow, hhigh, -⟩
  · rw [hsame] at h
    exact of_decide_eq_true (List.all_eq_true.1 hall c h)
  · refine ⟨by omega, ?_, ?_, ?_, ?_⟩
    · simp only [Text.isBlank, Bool.or_eq_false_iff, Bool.and_eq_false_iff, decide_eq_false_iff_not, beq_eq_false_iff_ne]
      omega
    all_goals
      rintro rfl
      revert hlow hhigh
      decide

theorem IsDigit.isPlain {radix d : Nat} (h : IsDigit radix c d) : IsPlain c :=
  isPlain_of_toLower (List.mem_of_getElem? h.2)

theorem Marks.isPlain {radix : Nat} (h : Marks c.toLower radix) : IsPlain c := by
  have hsub : ∀ {mark radix}, Marks mark radix → mark ∈ numerals := by
    rintro _ _ (_ | _ | _) <;> decide
  exact isPlain_of_toLower (hsub h)

/-- A mark is no digit of the radix it marks, nor of a decimal or octal literal. -/
theorem Marks.not_isDigit {radix other d : Nat} (h : Marks c.toLower radix) (hother : other = radix ∨ other ≤ 10) :
    ¬ IsDigit other c d := by
  rintro ⟨hlt, hdigit⟩
  rw [← digitValue?_eq_some_iff] at hdigit
  generalize c.toLower = mark at h hdigit
  cases h with
  | hexadecimal =>
    obtain rfl : 33 = d := Option.some.inj hdigit
    omega
  | octal =>
    obtain rfl : 24 = d := Option.some.inj hdigit
    omega
  | binary =>
    obtain rfl : 11 = d := Option.some.inj hdigit
    omega

end Letters

/-! ## Literals without a sign -/

section Unsigned

variable {version : Version} {base radix n : Nat} {text digits : List Char}

theorem lowered_cons {c : Char} {rest : List Char} (h : text.map Char.toLower = c :: rest) :
    ∃ c' rest', text = c' :: rest' ∧ c'.toLower = c ∧ rest'.map Char.toLower = rest :=
  List.map_eq_cons_iff.1 h

theorem lowered_zero {rest : List Char} (h : text.map Char.toLower = '0' :: rest) :
    ∃ rest', text = '0' :: rest' ∧ rest'.map Char.toLower = rest := by
  obtain ⟨c, rest', rfl, hc, hrest⟩ := lowered_cons h
  exact ⟨rest', by rw [eq_of_toLower_eq hc (by decide)], hrest⟩

theorem mayLead_of_alone (h : text.head? = some '0' → text = ['0']) : MayLead version text := by
  cases version with
  | python2 => exact h
  | python3 =>
    intro hhead
    simp [h hhead]

/-- The digits that are left to read decide what an unsigned literal denotes. -/
theorem unsigned_of_radixOf? {lowered : List Char}
    (h : radixOf? version base (text.map Char.toLower) = some (radix, lowered)) :
    ∃ digits, lowered = digits.map Char.toLower ∧ ∀ n, Spells radix digits n → Unsigned version base text n := by
  have marked {mark : Char} {radix : Nat} {rest : List Char} (hmark : Marks mark radix) (hbase : base = 0 ∨ base = radix)
      (htext : text.map Char.toLower = '0' :: mark :: rest) :
      ∃ digits, rest = digits.map Char.toLower ∧ ∀ n, Spells radix digits n → Unsigned version base text n := by
    obtain ⟨tail, rfl, htail⟩ := lowered_zero htext
    obtain ⟨c, digits, rfl, rfl, rfl⟩ := lowered_cons htail
    exact ⟨digits, rfl, fun n => .marked hmark hbase⟩
  -- one case for each branch: the first seven are those of base zero
  revert h
  generalize htext : text.map Char.toLower = literal
  fun_cases radixOf? version base literal with
  | case1 version rest =>
    rintro ⟨⟩
    exact marked .hexadecimal (.inl rfl) htext
  | case2 version rest =>
    rintro ⟨⟩
    exact marked .octal (.inl rfl) htext
  | case3 version rest =>
    rintro ⟨⟩
    exact marked .binary (.inl rfl) htext
  | case4 c rest =>
    rintro ⟨⟩
    obtain ⟨digits, rfl, hdigits⟩ := lowered_zero htext
    exact ⟨digits, hdigits.symm, fun n => .zeroOctal rfl rfl⟩
  | case5 c rest _ _ _ hzeros =>
    rintro ⟨⟩
    have hzeros' : ∀ c' ∈ '0' :: c :: rest, c' = '0' := by simpa using hzeros
    refine ⟨text, htext.symm, fun n hspells => .decimal rfl hspells ?_⟩
    intro _ c' hc'
    have hlowered : c'.toLower ∈ '0' :: c :: rest := htext ▸ List.mem_map_of_mem hc'
    exact eq_of_toLower_eq (by simpa using hzeros' _ hlowered) (by decide)
  | case6 => nofun
  | case7 version literal _ _ _ hlong =>
    rintro ⟨⟩
    refine ⟨text, htext.symm, fun n hspells => .decimal rfl hspells (mayLead_of_alone fun hhead => ?_)⟩
    obtain _ | ⟨c, _ | ⟨c', rest⟩⟩ := text
    · cases hhead
    · cases hhead
      rfl
    · cases hhead
      exact (hlong _ _ htext.symm).elim
  | case8 version rest =>
    rintro ⟨⟩
    exact marked .hexadecimal (.inr rfl) htext
  | case9 version rest =>
    rintro ⟨⟩
    exact marked .octal (.inr rfl) htext
  | case10 version rest =>
    rintro ⟨⟩
    exact marked .binary (.inr rfl) htext
  | case11 version base literal hbase =>
    rintro ⟨⟩
    exact ⟨text, htext.symm, fun n => .plain hbase⟩

theorem Spells.cons_zero (h : Spells radix text n) (hradix : 0 < radix) : Spells radix ('0' :: text) n := by
  obtain ⟨-, ds, hds, rfl⟩ := h
  refine ⟨by simp, 0 :: ds, .cons ⟨hradix, rfl⟩ hds, ?_⟩
  simp [Nat.ofDigits_append]

/-- Where digits are expected, no prefix is found. -/
theorem Spells.unmarked {mark : Char} {other : Nat} {rest : List Char} (h : Spells radix text n) (hmark : Marks mark other)
    (hradix : radix = other ∨ radix ≤ 10) : text.map Char.toLower ≠ '0' :: mark :: rest := by
  intro htext
  obtain ⟨tail, rfl, htail⟩ := lowered_zero htext
  obtain ⟨c, digits, rfl, rfl, -⟩ := lowered_cons htail
  obtain ⟨d, hd⟩ := h.isDigit c (by simp)
  exact hmark.not_isDigit hradix hd

/-- Every literal of the grammar is cut where its digits begin. -/
theorem Unsigned.radixOf?_eq_some (h : Unsigned version base text n) : ∃ radix digits,
    radixOf? version base (text.map Char.toLower) = some (radix, digits.map Char.toLower) ∧ Spells radix digits n := by
  cases h with
  | marked hmark hbase hspells =>
    refine ⟨_, _, ?_, hspells⟩
    rw [List.map_cons, List.map_cons]
    generalize Char.toLower _ = mark at hmark
    obtain rfl | rfl := hbase
    · cases hmark <;> rfl
    · cases hmark <;> rfl
  | plain hbase hspells =>
    refine ⟨base, text, ?_, hspells⟩
    generalize htext : text.map Char.toLower = literal
    fun_cases radixOf? version base literal with
    | case8 => exact absurd htext (hspells.unmarked .hexadecimal (.inl rfl))
    | case9 => exact absurd htext (hspells.unmarked .octal (.inl rfl))
    | case10 => exact absurd htext (hspells.unmarked .binary (.inl rfl))
    | case11 => rfl
    | _ => exact absurd rfl hbase
  | decimal hbase hspells hlead =>
    refine ⟨10, text, ?_, hspells⟩
    generalize htext : text.map Char.toLower = literal
    fun_cases radixOf? version base literal with
    | case1 => exact absurd htext (hspells.unmarked .hexadecimal (.inr (Nat.le_refl _)))
    | case2 => exact absurd htext (hspells.unmarked .octal (.inr (Nat.le_refl _)))
    | case3 => exact absurd htext (hspells.unmarked .binary (.inr (Nat.le_refl _)))
    | case4 c rest =>
      obtain ⟨tail, rfl, htail⟩ := lowered_zero htext
      cases hlead rfl
      cases htail
    | case5 => rfl
    | case6 c rest _ _ _ hzeros =>
      -- a leading zero with other digits behind it, which the newer version refuses
      obtain ⟨tail, rfl, htail⟩ := lowered_zero htext
      refine (hzeros (List.all_eq_true.2 fun c' hc' => ?_)).elim
      rw [← htail] at hc'
      obtain ⟨c'', hmem, rfl⟩ := List.mem_map.1 hc'
      simp [hlead rfl c'' (by simp [hmem])]
    | case7 => rfl
    | _ => simp_all
  | zeroOctal hbase hversion hspells =>
    rename_i digits
    refine ⟨8, digits, ?_, hspells⟩
    have hwhole : Spells 8 ('0' :: digits) n := hspells.cons_zero (by decide)
    generalize htext : ('0' :: digits).map Char.toLower = literal
    fun_cases radixOf? version base literal with
    | case1 => exact absurd htext (hwhole.unmarked .hexadecimal (.inr (by decide)))
    | case2 => exact absurd htext (hwhole.unmarked .octal (.inr (by decide)))
    | case3 => exact absurd htext (hwhole.unmarked .binary (.inr (by decide)))
    | case4 c rest => rw [← List.tail_eq_of_cons_eq htext]
    | case7 version literal _ _ _ hlong =>
      obtain ⟨c, rest, rfl⟩ := List.exists_cons_of_ne_nil hspells.1
      exact (hlong _ _ htext.symm).elim
    | _ => simp_all

end Unsigned

/-! ## Literals with a sign -/

section Signed

variable {version : Version} {base n : Nat} {text literal : List Char} {v v' : Int}

theorem Unsigned.isPlain (h : Unsigned version base text n) : ∀ c ∈ text, IsPlain c := by
  have hdigits {radix : Nat} {text : List Char} (hspells : Spells radix text n) : ∀ c ∈ text, IsPlain c := by
    intro c hc
    obtain ⟨d, hd⟩ := hspells.isDigit c hc
    exact hd.isPlain
  have hzero : IsPlain '0' := isPlain_of_toLower (by decide)
  cases h with
  | marked hmark _ hspells => simpa using ⟨hzero, hmark.isPlain, hdigits hspells⟩
  | plain _ hspells => exact hdigits hspells
  | decimal _ hspells _ => exact hdigits hspells
  | zeroOctal _ _ hspells => simpa using ⟨hzero, hdigits hspells⟩

/-- What is read behind the sign is what an unsigned literal denotes. -/
theorem unsigned_iff : (radixOf? version base (text.map Char.toLower)).bind (fun p => value? p.1 p.2) = some n ↔
    Unsigned version base text n := by
  constructor
  · intro h
    obtain ⟨⟨radix, lowered⟩, hradix, hvalue⟩ := Option.bind_eq_some_iff.1 h
    obtain ⟨digits, rfl, hdenotes⟩ := unsigned_of_radixOf? hradix
    exact hdenotes n (value?_eq_some_iff.1 hvalue)
  · intro h
    obtain ⟨radix, digits, hradix, hspells⟩ := h.radixOf?_eq_some
    exact Option.bind_eq_some_iff.2 ⟨_, hradix, value?_eq_some_iff.2 hspells⟩

theorem splitSign_cases (literal : List Char) :
    (∃ text, literal = '-' :: text ∧ splitSign literal = (true, text)) ∨
      (∃ text, literal = '+' :: text ∧ splitSign literal = (false, text)) ∨
        splitSign literal = (false, literal) ∧ ∀ c ∈ literal.head?, c ≠ '-' ∧ c ≠ '+' := by
  fun_cases splitSign literal with
  | case1 text => exact .inl ⟨text, rfl, rfl⟩
  | case2 text => exact .inr (.inl ⟨text, rfl, rfl⟩)
  | case3 literal hminus hplus =>
    refine .inr (.inr ⟨rfl, fun c hc => ?_⟩)
    obtain ⟨rest, rfl⟩ := List.head?_eq_some_iff.1 hc
    exact ⟨fun h => hminus rest (by rw [h]), fun h => hplus rest (by rw [h])⟩

theorem integer?_eq (literal : List Char) : integer? version base literal =
    ((radixOf? version base ((splitSign literal).2.map Char.toLower)).bind fun p => value? p.1 p.2).map fun n : Nat =>
      if (splitSign literal).1 then -(n : Int) else n := by
  change ((radixOf? version base ((splitSign literal).2.map Char.toLower)).bind fun p => (value? p.1 p.2).bind fun n : Nat =>
    some (if (splitSign literal).1 then -(n : Int) else n)) = _
  rw [Option.map_bind]
  exact congrArg _ (funext fun p => Option.map_eq_bind.symm)

/-- **What is read is what a literal denotes.** -/
theorem integer?_eq_some_iff : integer? version base literal = some v ↔ Denotes version base literal v := by
  rw [integer?_eq, Option.map_eq_some_iff]
  simp only [unsigned_iff]
  rcases splitSign_cases literal with ⟨text, rfl, hsplit⟩ | ⟨text, rfl, hsplit⟩ | ⟨hsplit, hhead⟩
  all_goals simp only [hsplit, if_true, if_false, Bool.false_eq_true]
  · constructor
    · rintro ⟨n, hn, rfl⟩
      exact .minus hn
    · intro h
      cases h with
      | minus hn => exact ⟨_, hn, rfl⟩
      | bare hn => exact absurd rfl (hn.isPlain '-' (by simp)).2.2.2.2
  · constructor
    · rintro ⟨n, hn, rfl⟩
      exact .plus hn
    · intro h
      cases h with
      | plus hn => exact ⟨_, hn, rfl⟩
      | bare hn => exact absurd rfl (hn.isPlain '+' (by simp)).2.2.2.1
  · constructor
    · rintro ⟨n, hn, rfl⟩
      exact .bare hn
    · intro h
      cases h with
      | bare hn => exact ⟨_, hn, rfl⟩
      | plus hn => exact absurd rfl (hhead '+' rfl).2
      | minus hn => exact absurd rfl (hhead '-' rfl).1

/-- A literal has one value at most. -/
theorem Denotes.unique (h : Denotes version base literal v) (h' : Denotes version base literal v') : v = v' :=
  Option.some.inj ((integer?_eq_some_iff.2 h).symm.trans (integer?_eq_some_iff.2 h'))

end Signed

/-! ## Reading -/

section Reading

variable {version : Version} {base : Nat} {text : String} {literal : List Char}

theorem fits_iff {v : Int} : fits v = true ↔ -2 ^ 63 ≤ v ∧ v ≤ 2 ^ 63 - 1 := by
  rw [fits, Bool.and_eq_true, decide_eq_true_eq, decide_eq_true_eq]
  rfl

theorem fits_toInt (n : Int64) : fits n.toInt = true :=
  fits_iff.2 ⟨n.le_toInt, Int.le_sub_one_of_lt n.toInt_lt⟩

theorem toInt_ofInt_of_fits {v : Int} (h : fits v = true) : (Int64.ofInt v).toInt = v := by
  obtain ⟨hlow, hhigh⟩ := fits_iff.1 h
  exact Int64.toInt_ofInt_of_le hlow (by omega)

/-- What a reading says of a literal that was found to be a value or none. -/
def Reading.ofInteger? : Option Int → Reading
  | none => .malformed
  | some v => if fits v then .value (Int64.ofInt v) else .undecided

theorem read_of_isTrimmed (htrim : Text.IsTrimmed text.toList literal) (hascii : Text.isAscii literal = true)
    (hunderscore : '_' ∉ literal) :
    read version base text = .ofInteger? (integer? version base literal) := by
  have hplain : (literal.contains '_' || !Text.isAscii literal) = false := by simp [hascii, hunderscore]
  simp only [read, htrim.trim_eq, hplain, Bool.false_eq_true, if_false]
  rfl

theorem Denotes.readable {v : Int} (h : Denotes version base literal v) :
    ∀ c ∈ literal, c.toNat < 128 ∧ Text.isBlank c = false ∧ c ≠ '_' := by
  have hplain {text : List Char} {n : Nat} (hn : Unsigned version base text n) :
      ∀ c ∈ text, c.toNat < 128 ∧ Text.isBlank c = false ∧ c ≠ '_' := by
    intro c hc
    obtain ⟨hascii, hblank, hunderscore, -⟩ := hn.isPlain c hc
    exact ⟨hascii, hblank, hunderscore⟩
  cases h with
  | bare hn => exact hplain hn
  | plus hn => exact List.forall_mem_cons.2 ⟨by decide, hplain hn⟩
  | minus hn => exact List.forall_mem_cons.2 ⟨by decide, hplain hn⟩

/-- What denotes an integer is read as that integer. -/
theorem read_of_denotes {n : Int64} (h : Denotes version base text.toList n.toInt) : read version base text = .value n := by
  have htrim : Text.IsTrimmed text.toList text.toList := Text.isTrimmed_self fun c hc => (h.readable c hc).2.1
  have hascii : Text.isAscii text.toList = true :=
    List.all_eq_true.2 fun c hc => decide_eq_true (h.readable c hc).1
  have hunderscore : '_' ∉ text.toList := fun hmem => (h.readable _ hmem).2.2 rfl
  rw [read_of_isTrimmed htrim hascii hunderscore, integer?_eq_some_iff.2 h, Reading.ofInteger?, if_pos (fits_toInt n),
    Int64.ofInt_toInt]

/-- **Reading decides the grammar of integer literals.** In a text without underscores and characters beyond ASCII,
whatever stands between its blanks: the reading is a value exactly if that is what the literal denotes, undecided exactly
if it denotes a value beyond 64 bits, and malformed exactly if it denotes nothing. All other texts are undecided. -/
theorem read_exact (version : Version) (base : Nat) (text : String) : ∃ literal, Text.IsTrimmed text.toList literal ∧
    (Text.isAscii literal = true → '_' ∉ literal →
      (∀ n : Int64, read version base text = .value n ↔ Denotes version base literal n.toInt) ∧
      (read version base text = .undecided ↔ ∃ v, Denotes version base literal v ∧ (v < -2 ^ 63 ∨ 2 ^ 63 - 1 < v)) ∧
      (read version base text = .malformed ↔ ¬ ∃ v, Denotes version base literal v)) ∧
    (Text.isAscii literal = false ∨ '_' ∈ literal → read version base text = .undecided) := by
  obtain ⟨literal, htrim⟩ : ∃ literal, Text.IsTrimmed text.toList literal := ⟨_, Text.isTrimmed_trim _⟩
  refine ⟨literal, htrim, ?_, ?_⟩
  · intro hascii hunderscore
    rw [read_of_isTrimmed htrim hascii hunderscore]
    cases hvalue : integer? version base literal with
    | none =>
      have hnone (v : Int) : ¬ Denotes version base literal v := by
        intro h
        rw [integer?_eq_some_iff.2 h] at hvalue
        cases hvalue
      exact ⟨fun n => ⟨nofun, fun h => (hnone _ h).elim⟩, ⟨nofun, fun ⟨v, h, _⟩ => (hnone v h).elim⟩,
        fun _ ⟨v, h⟩ => hnone v h, fun _ => rfl⟩
    | some v =>
      have hdenotes : Denotes version base literal v := integer?_eq_some_iff.1 hvalue
      have hmalformed : ¬ ¬ ∃ v, Denotes version base literal v := fun h => h ⟨v, hdenotes⟩
      cases hfits : fits v with
      | true =>
        simp only [Reading.ofInteger?, hfits, if_true]
        refine ⟨fun n => ⟨?_, ?_⟩, ⟨nofun, ?_⟩, nofun, fun h => (hmalformed h).elim⟩
        · rintro ⟨⟩
          rwa [toInt_ofInt_of_fits hfits]
        · intro h
          rw [hdenotes.unique h, Int64.ofInt_toInt]
        · rintro ⟨v', h, hrange⟩
          have hin := fits_iff.1 hfits
          rw [hdenotes.unique h] at hin
          omega
      | false =>
        simp only [Reading.ofInteger?, hfits, Bool.false_eq_true, if_false]
        refine ⟨fun n => ⟨nofun, ?_⟩, ⟨fun _ => ⟨v, hdenotes, ?_⟩, fun _ => trivial⟩, nofun, fun h => (hmalformed h).elim⟩
        · intro h
          rw [hdenotes.unique h, fits_toInt] at hfits
          cases hfits
        · have hout : ¬ (-2 ^ 63 ≤ v ∧ v ≤ 2 ^ 63 - 1) := fun h => by simp [fits_iff.2 h] at hfits
          omega
  · intro h
    have hopaque : (literal.contains '_' || !Text.isAscii literal) = true := by
      rcases h with h | h <;> simp [h]
    simp only [read, htrim.trim_eq, hopaque, if_true]

example : read .python2 0 " -0X1f " = .value (-31) := by decide

end Reading

end IntegerLiteral

end Specializer
