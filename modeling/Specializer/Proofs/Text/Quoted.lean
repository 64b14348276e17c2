import Mathlib.Tactic.SplitIfs
import Specializer.IntegerLiteral
import Specializer.Text.Quoted

/-!
# Reading quoted literals

`unquote` reads the content of a literal up to its closing quote and undoes the escapes. Whatever a text or a byte string
holds, it is recovered from the literal that the newer version writes for it (`unquote_quoteText`, `unquote_quoteBytes`):
what is written for one character or byte is read as that character, whatever follows (`ReadsAs`), and the closing quote
is the first one that is not escaped.
-/

namespace Specializer.Text

/-- What a character stands for after a backslash. -/
def escaped? (c : Char) : Option Char :=
  if c = 'n' then some '\n'
  else if c = 'r' then some '\r'
  else if c = 't' then some '\t'
  else if c = '\\' ∨ c = '\'' ∨ c = '"' then some c
  else none

/-- The character with the code that two hexadecimal digits give. -/
def hexChar? (high low : Char) : Option Char := do
  let h ← IntegerLiteral.digitBelow? 16 high
  let l ← IntegerLiteral.digitBelow? 16 low
  return Char.ofNat (16 * h + l)

/-- The content of a literal after its opening quote, and what follows the closing one. -/
def unquote (quote : Char) : List Char → Option (List Char × List Char)
  | [] => none
  | '\\' :: 'x' :: high :: low :: rest => do
    let c ← hexChar? high low
    let (content, rest) ← unquote quote rest
    return (c :: content, rest)
  | '\\' :: c :: rest => do
    let c ← escaped? c
    let (content, rest) ← unquote quote rest
    return (c :: content, rest)
  | c :: rest =>
    if c = quote then some ([], rest)
    else do
      let (content, rest) ← unquote quote rest
      return (c :: content, rest)

/-! ## One character -/

/-- Inside a literal, `piece` is read as the character `c`. -/
def ReadsAs (quote : Char) (piece : List Char) (c : Char) : Prop :=
  ∀ rest content after, unquote quote rest = some (content, after) →
    unquote quote (piece ++ rest) = some (c :: content, after)

section Characters

variable {quote c : Char}

theorem readsAs_self (hbackslash : c ≠ '\\') (hquote : c ≠ quote) : ReadsAs quote [c] c := by
  intro rest content after h
  rw [List.singleton_append, unquote.eq_def]
  split
  · next heq => cases heq
  · next heq => exact absurd (List.cons.inj heq).1 hbackslash
  · next heq => exact absurd (List.cons.inj heq).1 hbackslash
  · next heq =>
    obtain ⟨rfl, rfl⟩ := List.cons.inj heq
    rw [if_neg hquote, h]
    rfl

theorem readsAs_escape {e : Char} (hx : e ≠ 'x') (h : escaped? e = some c) : ReadsAs quote ['\\', e] c := by
  intro rest content after hrest
  rw [List.cons_append, List.singleton_append, unquote.eq_def]
  split
  · next heq => cases heq
  · next heq => exact absurd (List.cons.inj (List.cons.inj heq).2).1 hx
  · next heq =>
    obtain ⟨rfl, rfl⟩ := List.cons.inj (List.cons.inj heq).2
    rw [h, hrest]
    rfl
  · next hnone heq =>
    obtain ⟨rfl, rfl⟩ := List.cons.inj heq
    exact (hnone e rest rfl rfl).elim

theorem hexChar?_hexDigit {n : Nat} (h : n < 256) : hexChar? (hexDigit (n / 16)) (hexDigit (n % 16)) = some (Char.ofNat n) := by
  have hdigit : ∀ d < 16, IntegerLiteral.digitBelow? 16 (hexDigit d) = some d := by decide
  rw [hexChar?, hdigit _ (by omega), hdigit _ (by omega)]
  exact congrArg (some <| Char.ofNat ·) (Nat.div_add_mod n 16)

theorem readsAs_hexEscape {n : Nat} (h : n < 256) : ReadsAs quote (hexEscape n) (Char.ofNat n) := by
  intro rest content after hrest
  rw [hexEscape, List.cons_append, List.cons_append, List.cons_append, List.cons_append, List.nil_append, unquote,
    hexChar?_hexDigit h, hrest]
  rfl

/-- The quotes of literals. -/
def IsQuote (quote : Char) : Prop := quote = '\'' ∨ quote = '"'

theorem isQuote_quoteFor (single double : Bool) : IsQuote (quoteFor single double) := by
  unfold quoteFor IsQuote
  split <;> simp

/-- The escapes that texts and byte strings have in common; `other` is what is written for all other characters. -/
theorem readsAs_special (h : IsQuote quote) {other : List Char}
    (hother : c ≠ '\\' → c ≠ quote → ReadsAs quote other c) :
    ReadsAs quote (if c = '\\' then ['\\', '\\'] else if c = '\n' then ['\\', 'n'] else if c = '\r' then ['\\', 'r']
      else if c = '\t' then ['\\', 't'] else if c = quote then ['\\', c] else other) c := by
  split_ifs with hbackslash hnewline hreturn htab hquote
  · subst hbackslash
    exact readsAs_escape (by decide) rfl
  · subst hnewline
    exact readsAs_escape (by decide) rfl
  · subst hreturn
    exact readsAs_escape (by decide) rfl
  · subst htab
    exact readsAs_escape (by decide) rfl
  · subst hquote
    rcases h with rfl | rfl <;> exact readsAs_escape (by decide) rfl
  · exact hother hbackslash hquote

/-- What the newer version writes for a character of a text is read as that character. -/
theorem readsAs_quoteChar (h : IsQuote quote) (c : Char) : ReadsAs quote (quoteChar .python3 quote c) c := by
  have hcode (hlt : c.toNat < 256) : ReadsAs quote (hexEscape c.toNat) c := by
    have hread : ReadsAs quote (hexEscape c.toNat) (Char.ofNat c.toNat) := readsAs_hexEscape hlt
    rwa [Char.ofNat_toNat] at hread
  refine readsAs_special h fun hbackslash hquote => ?_
  split_ifs with hcontrol hascii hlate
  · simp only [Bool.or_eq_true, decide_eq_true_eq, beq_iff_eq] at hcontrol
    exact hcode (by omega)
  · exact readsAs_self hbackslash hquote
  · exact hcode (by omega)
  · exact readsAs_self hbackslash hquote

/-- What is written for a byte is read as the character with that code. -/
theorem readsAs_quoteByte (h : IsQuote quote) (b : UInt8) : ReadsAs quote (quoteByte quote b) (Char.ofNat b.toNat) := by
  refine readsAs_special h fun hbackslash hquote => ?_
  split_ifs
  · exact readsAs_self hbackslash hquote
  · exact readsAs_hexEscape b.toNat_lt

end Characters

/-! ## Whole literals -/

section Literals

variable {α : Type} {quote : Char} {f : α → List Char} {g : α → Char}

/-- The closing quote ends the content. -/
theorem unquote_quote (h : IsQuote quote) (rest : List Char) : unquote quote (quote :: rest) = some ([], rest) := by
  rcases h with rfl | rfl <;> simp [unquote]

theorem unquote_flatMap (h : IsQuote quote) (hread : ∀ x, ReadsAs quote (f x) (g x)) (xs : List α) (rest : List Char) :
    unquote quote (xs.flatMap f ++ quote :: rest) = some (xs.map g, rest) := by
  induction xs with
  | nil => exact unquote_quote h rest
  | cons x xs ih =>
    rw [List.flatMap_cons, List.append_assoc]
    exact hread x _ _ _ ih

/-- **A text is recovered from its literal.** -/
theorem unquote_quoteText (s : String) : ∃ quote body, (quoteText .python3 s).toList = quote :: body ∧ IsQuote quote ∧
    ∀ rest, unquote quote (body ++ rest) = some (s.toList, rest) := by
  have hquote := isQuote_quoteFor (s.toList.contains '\'') (s.toList.contains '"')
  refine ⟨_, _, String.toList_ofList, hquote, fun rest => ?_⟩
  have hread := unquote_flatMap hquote (readsAs_quoteChar hquote) s.toList rest
  rw [List.map_id'] at hread
  rw [List.append_assoc]
  exact hread

theorem toNat_charOfNat (b : UInt8) : (Char.ofNat b.toNat).toNat = b.toNat := by
  have hvalid : b.toNat.isValidChar := .inl (by have := b.toNat_lt; omega)
  rw [Char.ofNat, dif_pos hvalid]
  rfl

/-- The bytes whose codes are given by characters. -/
def bytesOf (content : List Char) : List UInt8 := content.map fun c => UInt8.ofNat c.toNat

/-- **A byte string is recovered from its literal.** -/
theorem unquote_quoteBytes (b : List UInt8) : ∃ quote body content, (quoteBytes b).toList = quote :: body ∧ IsQuote quote ∧
    (∀ rest, unquote quote (body ++ rest) = some (content, rest)) ∧ bytesOf content = b := by
  have hquote := isQuote_quoteFor (b.contains 0x27) (b.contains 0x22)
  refine ⟨_, _, b.map fun b => Char.ofNat b.toNat, String.toList_ofList, hquote, fun rest => ?_, ?_⟩
  · rw [List.append_assoc]
    exact unquote_flatMap hquote (readsAs_quoteByte hquote) b rest
  · simp [bytesOf, Function.comp_def, toNat_charOfNat]

end Literals

end Specializer.Text
