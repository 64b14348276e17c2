import Specializer.Proofs.Computation
import Specializer.Proofs.IntegerLiteral

/-!
# Integers that are written and read again

`str`, `bin`, `oct` and `hex` write an integer as a literal that denotes it, in the base of the builtin and also where the
literal itself has to tell its radix. What denotes an integer is read as that integer (`int_of_denotes`), so `int` gives
back every integer that was written (`int_evaluate_written`), in both versions and up to the bounds of 64 bits.
-/

namespace Specializer

open IntegerLiteral

namespace IntegerLiteral

section Writing

variable {version : Version} {base radix n d : Nat} {text : List Char} {c : Char}

/-! ## Digits that are written -/

/-- One more digit at the end. -/
theorem Spells.concat (h : Spells radix text n) (hc : IsDigit radix c d) : Spells radix (text ++ [c]) (radix * n + d) := by
  obtain ⟨-, ds, hds, rfl⟩ := h
  refine ⟨by simp, ds ++ [d], List.rel_append hds (.cons hc .nil), ?_⟩
  rw [List.reverse_append, List.reverse_singleton, List.singleton_append, Nat.ofDigits_cons, Nat.add_comm]

theorem isDigit_digitChar (hradix : radix ≤ 16) (hd : d < radix) : IsDigit radix (Nat.digitChar d) d := by
  have hall : ∀ d < 16, numerals[d]? = some (Nat.digitChar d).toLower := by decide
  exact ⟨hd, hall d (by omega)⟩

/-- The digits of a number denote it. -/
theorem spells_toDigits (hlow : 1 < radix) (hhigh : radix ≤ 16) (n : Nat) : Spells radix (Nat.toDigits radix n) n := by
  induction n using Nat.strongRecOn with
  | ind n ih =>
    rw [Nat.toDigits_eq_if hlow]
    split
    · next hlt =>
      refine ⟨by simp, [n], .cons (isDigit_digitChar hhigh hlt) .nil, ?_⟩
      simp
    · next hle =>
      have hless : n / radix < n := Nat.div_lt_self (by omega) hlow
      have hlast : IsDigit radix (Nat.digitChar (n % radix)) (n % radix) :=
        isDigit_digitChar hhigh (Nat.mod_lt n (by omega))
      have hwhole := (ih _ hless).concat hlast
      rwa [Nat.div_add_mod] at hwhole

/-- The digits of a number start with zero only if that is all. -/
theorem eq_zero_of_head_toDigits (hlow : 1 < radix) {n : Nat} (h : (Nat.toDigits radix n).head? = some '0') : n = 0 := by
  induction n using Nat.strongRecOn with
  | ind n ih =>
    rw [Nat.toDigits_eq_if hlow] at h
    split at h
    · simpa using h
    · next hle =>
      exfalso
      have hless : n / radix < n := Nat.div_lt_self (by omega) hlow
      rw [List.head?_append_of_ne_nil _ Nat.toDigits_ne_nil] at h
      have hzero : n / radix = 0 := ih _ hless h
      have hpositive : 0 < n / radix := Nat.div_pos (by omega) (by omega)
      omega

/-! ## Literals that are written -/

/-- Digits in their own base. -/
theorem unsigned_toDigits (version : Version) (base : Nat) (hlow : 1 < base) (hhigh : base ≤ 16) (n : Nat) :
    Unsigned version base (Nat.toDigits base n) n :=
  .plain (by omega) (spells_toDigits hlow hhigh n)

/-- Digits behind the mark of their radix, for readers that know the radix and for those that do not. -/
theorem unsigned_marked (version : Version) (mark : Char) (hmark : Marks mark.toLower radix)
    (hbase : base = 0 ∨ base = radix) (n : Nat) : Unsigned version base ('0' :: mark :: Nat.toDigits radix n) n := by
  have hradix : 1 < radix ∧ radix ≤ 16 := by
    generalize mark.toLower = mark at hmark
    cases hmark <;> decide
  exact .marked hmark hbase (spells_toDigits hradix.1 hradix.2 n)

/-- Decimal digits tell their radix. -/
theorem unsigned_decimal (version : Version) (n : Nat) : Unsigned version 0 (Nat.toDigits 10 n) n := by
  refine .decimal rfl (spells_toDigits (by decide) (by decide) n) (mayLead_of_alone fun hhead => ?_)
  rw [eq_zero_of_head_toDigits (by decide) hhead, Nat.toDigits_zero]

/-- A text behind the sign of an integer. -/
def signed (v : Int) (text : List Char) : List Char := if v < 0 then '-' :: text else text

theorem Unsigned.signed {v : Int} (h : Unsigned version base text v.natAbs) : Denotes version base (signed v text) v := by
  unfold IntegerLiteral.signed
  split
  · have hvalue : -(v.natAbs : Int) = v := by omega
    exact hvalue ▸ .minus h
  · have hvalue : (v.natAbs : Int) = v := by omega
    exact hvalue ▸ .bare h

theorem toList_toString (v : Int) : (toString v).toList = signed v (Nat.toDigits 10 v.natAbs) := by
  rw [Int.toString_eq_repr, Int.repr_eq_if, IntegerLiteral.signed]
  split
  · next hle =>
    have habs : v.toNat = v.natAbs := by omega
    rw [if_neg (by omega), Nat.toList_repr, habs]
  · next hlt =>
    have habs : (-v).toNat = v.natAbs := by omega
    rw [if_pos (by omega), String.toList_append, Nat.toList_repr, habs]
    rfl

end Writing

end IntegerLiteral

/-! ## Reading what was written -/

namespace Builtin

variable {version : Version} {n base : Int64} {text : String}

/-- A literal that denotes an integer in a base is converted to it. -/
theorem int_of_denotes (hbase : base.toInt = 0 ∨ 2 ≤ base.toInt ∧ base.toInt ≤ 36)
    (h : Denotes version base.toInt.toNat text.toList n.toInt) :
    PureBuiltin.int.evaluate { values := [some (.str text), some (.int base)] } version = .ok (.int n) := by
  have hliteral : literalBase version "int" (some (.int base)) = .ok base.toInt.toNat := by
    simp only [literalBase, Constant.asInt?]
    rw [if_pos hbase]
    rfl
  have hinteger : toInteger "int" { values := [some (.str text), some (.int base)] } version = .ok n := by
    simp only [toInteger, BoundArguments.get?, List.getElem?_cons_zero, List.getElem?_cons_succ, Option.join_some,
      literalText?, ok_bind, hliteral, read_of_denotes h, except_pure]
  change (toInteger "int" _ version >>= fun n => pure (Constant.int n)) = _
  rw [hinteger]
  rfl

/-- The radix of a style. -/
def RadixStyle.radix : RadixStyle → Nat
  | .binary => 2
  | .octal => 8
  | .hexadecimal => 16

theorem toList_digits (mark : String) (radix n : Nat) :
    (mark ++ digits radix n).toList = mark.toList ++ Nat.toDigits radix n := by
  rw [String.toList_append, digits, String.toList_ofList]

/-- A magnitude in a style denotes itself, in the radix of the style and without a base. -/
theorem unsigned_render (version : Version) (style : RadixStyle) (n : Nat) {base : Nat}
    (hbase : base = 0 ∨ base = style.radix) : Unsigned version base (style.render version n).toList n := by
  cases style with
  | binary =>
    rw [RadixStyle.render, toList_digits]
    exact unsigned_marked version 'b' .binary hbase n
  | hexadecimal =>
    rw [RadixStyle.render, toList_digits]
    exact unsigned_marked version 'x' .hexadecimal hbase n
  | octal =>
    cases version with
    | python3 =>
      simp only [RadixStyle.render, toList_digits]
      exact unsigned_marked .python3 'o' .octal hbase n
    | python2 =>
      simp only [RadixStyle.render]
      split
      · next hzero =>
        subst hzero
        obtain rfl | rfl := hbase
        · exact unsigned_decimal .python2 0
        · exact unsigned_toDigits .python2 8 (by decide) (by decide) 0
      · have hdigits : Spells 8 (Nat.toDigits 8 n) n := spells_toDigits (by decide) (by decide) n
        rw [toList_digits]
        obtain rfl | rfl := hbase
        · exact .zeroOctal rfl rfl hdigits
        · exact .plain (by decide) (hdigits.cons_zero (by decide))

/-- The builtins that write an integer, with the base of the literals they write. -/
def writers : List (PureBuiltin × Int64) := [(.str, 10), (.bin, 2), (.oct, 8), (.hex, 16)]

theorem inRadix_int (style : RadixStyle) (version : Version) (n : Int64) : ∃ text : String,
    inRadix style { values := [some (.int n)] } version = .ok (.str text) ∧
      text.toList = signed n.toInt (style.render version n.toInt.natAbs).toList := by
  refine ⟨_, rfl, ?_⟩
  simp only [isLong, Bool.false_and, Bool.false_eq_true, if_false, String.append_empty, String.toList_append,
    IntegerLiteral.signed]
  split <;> rfl

/-- Every builtin that writes an integer writes a literal that denotes it. -/
theorem evaluate_writer (version : Version) (n : Int64) {writer : PureBuiltin} {base : Int64}
    (h : (writer, base) ∈ writers) : ∃ text : String,
      writer.evaluate { values := [some (.int n)] } version = .ok (.str text) ∧
        ∀ b : Nat, b = 0 ∨ b = base.toInt.toNat → Denotes version b text.toList n.toInt := by
  have inStyle (style : RadixStyle) : ∃ text : String,
      inRadix style { values := [some (.int n)] } version = .ok (.str text) ∧
        ∀ b : Nat, b = 0 ∨ b = style.radix → Denotes version b text.toList n.toInt := by
    obtain ⟨text, hrun, htext⟩ := inRadix_int style version n
    refine ⟨text, hrun, fun b hb => ?_⟩
    rw [htext]
    exact (unsigned_render version style _ hb).signed
  simp only [writers, List.mem_cons, Prod.mk.injEq, List.not_mem_nil, or_false] at h
  rcases h with ⟨rfl, rfl⟩ | ⟨rfl, rfl⟩ | ⟨rfl, rfl⟩ | ⟨rfl, rfl⟩
  · refine ⟨toString n.toInt, rfl, fun b hb => ?_⟩
    rw [toList_toString]
    obtain rfl | rfl := hb
    · exact (unsigned_decimal version _).signed
    · exact (unsigned_toDigits version 10 (by decide) (by decide) _).signed
  · exact inStyle .binary
  · exact inStyle .octal
  · exact inStyle .hexadecimal

end Builtin

/-- **Integers that are written are read again.** Whatever integer of 64 bits a builtin writes, `int` gives back, both in
the base of that builtin and in base zero, where the literal tells its radix. -/
theorem int_evaluate_written (version : Version) (n : Int64) {writer : PureBuiltin} {base : Int64}
    (h : (writer, base) ∈ Builtin.writers) : ∃ text : String,
      writer.evaluate { values := [some (.int n)] } version = .ok (.str text) ∧
        ∀ b ∈ [base, 0], PureBuiltin.int.evaluate { values := [some (.str text), some (.int b)] } version = .ok (.int n) := by
  have hbases : ∀ p ∈ Builtin.writers, 2 ≤ p.2.toInt ∧ p.2.toInt ≤ 36 := by decide
  obtain ⟨text, hwrite, hdenotes⟩ := Builtin.evaluate_writer version n h
  refine ⟨text, hwrite, List.forall_mem_cons.2 ⟨?_, List.forall_mem_singleton.2 ?_⟩⟩
  · exact Builtin.int_of_denotes (.inr (hbases _ h)) (hdenotes _ (.inr rfl))
  · exact Builtin.int_of_denotes (.inl rfl) (hdenotes _ (.inl rfl))

/-- The smallest integer in octal, as the older version writes it. -/
theorem int_evaluate_written_least : (PureBuiltin.oct, 8) ∈ Builtin.writers ∧ ∃ text : String,
    PureBuiltin.oct.evaluate { values := [some (.int Int64.minValue)] } .python2 = .ok (.str text) ∧
      PureBuiltin.int.evaluate { values := [some (.str text), some (.int 0)] } .python2 = .ok (.int Int64.minValue) := by
  have hwriter : (PureBuiltin.oct, 8) ∈ Builtin.writers := by decide
  obtain ⟨text, hwrite, hread⟩ := int_evaluate_written .python2 Int64.minValue hwriter
  exact ⟨hwriter, text, hwrite, hread 0 (by simp)⟩

end Specializer
