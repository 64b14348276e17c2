import Mathlib.Tactic.SplitIfs
import Specializer.Text.Blank
import Specializer.Text.Utf8

/-!
# Reading UTF-8

What is written for a character is read as that character, whatever follows (`piecesFrom_utf8EncodeChar`): its first
byte opens it with the bounds of the second one, and every further byte brings six bits. So the bytes of a text are read
as the text, and lenient reading gives the bytes it was given back exactly if they are the bytes of some text
(`encode_decodeLossy_iff`).

The bytes of an ASCII character are its code alone, and those of any other character are all outside ASCII.
-/

namespace Specializer.Text.Utf8

/-! ## The bytes of a character -/

section Characters

variable {c : Char} {n : Nat}

/-- The four forms of a character, by the size of its code. -/
theorem utf8EncodeChar_eq (c : Char) : String.utf8EncodeChar c =
    if c.toNat ≤ 0x7f then [UInt8.ofNat c.toNat]
    else if c.toNat ≤ 0x7ff then [UInt8.ofNat (c.toNat / 64 % 32 + 0xc0), UInt8.ofNat (c.toNat % 64 + 0x80)]
    else if c.toNat ≤ 0xffff then
      [UInt8.ofNat (c.toNat / 4096 % 16 + 0xe0), UInt8.ofNat (c.toNat / 64 % 64 + 0x80),
        UInt8.ofNat (c.toNat % 64 + 0x80)]
    else
      [UInt8.ofNat (c.toNat / 262144 % 8 + 0xf0), UInt8.ofNat (c.toNat / 4096 % 64 + 0x80),
        UInt8.ofNat (c.toNat / 64 % 64 + 0x80), UInt8.ofNat (c.toNat % 64 + 0x80)] := rfl

theorem utf8EncodeChar_of_ascii (h : c.toNat < 0x80) : String.utf8EncodeChar c = [UInt8.ofNat c.toNat] := by
  rw [utf8EncodeChar_eq, if_pos (by omega)]

/-- Outside ASCII there are several bytes, all of them outside ASCII. -/
theorem utf8EncodeChar_of_not_ascii (h : 0x80 ≤ c.toNat) : 2 ≤ (String.utf8EncodeChar c).length ∧
    ∀ b ∈ String.utf8EncodeChar c, 0x80 ≤ b.toNat := by
  rw [utf8EncodeChar_eq, if_neg (by omega)]
  split_ifs <;> simp [-UInt8.ofNat_add] <;> omega

/-! ## Reading one byte -/

section Bytes

variable {b : UInt8} {p q : Pending} {rest : List UInt8}

theorem piecesFrom_of_start_complete (h : start b = .complete c) :
    piecesFrom none (b :: rest) = some c :: piecesFrom none rest := by
  rw [piecesFrom, h]

theorem piecesFrom_of_start_more (h : start b = .more p) : piecesFrom none (b :: rest) = piecesFrom (some p) rest := by
  rw [piecesFrom, h]

theorem piecesFrom_of_next_complete (h : p.next b = .complete c) :
    piecesFrom (some p) (b :: rest) = some c :: piecesFrom none rest := by
  rw [piecesFrom, h]

theorem piecesFrom_of_next_more (h : p.next b = .more q) :
    piecesFrom (some p) (b :: rest) = piecesFrom (some q) rest := by
  rw [piecesFrom, h]

theorem start_one (h : n < 0x80) : start (UInt8.ofNat n) = .complete (Char.ofNat n) := by
  simp only [start, UInt8.lt_iff_toNat_lt, UInt8.toNat_ofNat_of_lt' (show n < 256 by omega), UInt8.reduceToNat]
  rw [if_pos h]

theorem start_two (hlow : 0xc2 ≤ n) (hhigh : n < 0xe0) :
    start (UInt8.ofNat n) = .more ⟨n - 0xc0, 0, 0x80, 0xbf⟩ := by
  simp only [start, UInt8.lt_iff_toNat_lt, UInt8.toNat_ofNat_of_lt' (show n < 256 by omega), UInt8.reduceToNat]
  rw [if_neg (by omega), if_neg (by omega), if_pos hhigh]

theorem start_three (hlow : 0xe0 ≤ n) (hhigh : n < 0xf0) : start (UInt8.ofNat n) =
    .more ⟨n - 0xe0, 1, if n = 0xe0 then 0xa0 else 0x80, if n = 0xed then 0x9f else 0xbf⟩ := by
  simp only [start, UInt8.lt_iff_toNat_lt, ← UInt8.toNat_inj, UInt8.toNat_ofNat_of_lt' (show n < 256 by omega),
    UInt8.reduceToNat]
  rw [if_neg (by omega), if_neg (by omega), if_neg (by omega), if_pos hhigh]

theorem start_four (hlow : 0xf0 ≤ n) (hhigh : n < 0xf5) : start (UInt8.ofNat n) =
    .more ⟨n - 0xf0, 2, if n = 0xf0 then 0x90 else 0x80, if n = 0xf4 then 0x8f else 0xbf⟩ := by
  simp only [start, UInt8.lt_iff_toNat_lt, ← UInt8.toNat_inj, UInt8.toNat_ofNat_of_lt' (show n < 256 by omega),
    UInt8.reduceToNat]
  rw [if_neg (by omega), if_neg (by omega), if_neg (by omega), if_neg (by omega), if_pos hhigh]

/-- A byte within the bounds brings six more bits. -/
theorem next_of_mem {bits left : Nat} {lo hi : UInt8} (hlow : lo.toNat ≤ n) (hhigh : n ≤ hi.toNat) :
    (⟨bits, left, lo, hi⟩ : Pending).next (UInt8.ofNat n) = match left with
      | 0 => .complete (Char.ofNat (bits * 64 + (n - 0x80)))
      | left + 1 => .more ⟨bits * 64 + (n - 0x80), left, 0x80, 0xbf⟩ := by
  have hn : (UInt8.ofNat n).toNat = n := UInt8.toNat_ofNat_of_lt' (Nat.lt_of_le_of_lt hhigh hi.toNat_lt)
  have hmem : lo ≤ UInt8.ofNat n ∧ UInt8.ofNat n ≤ hi := by
    rw [UInt8.le_iff_toNat_le, UInt8.le_iff_toNat_le, hn]
    exact ⟨hlow, hhigh⟩
  cases left <;> simp only [Pending.next, if_pos hmem, hn]

end Bytes

/-! ## Reading one character -/

/-- Codes of characters are no surrogates and have an end. -/
theorem toNat_bounds (c : Char) : (c.toNat < 0xd800 ∨ 0xdfff < c.toNat) ∧ c.toNat < 0x110000 := by
  have hvalid : c.toNat < 0xd800 ∨ 0xdfff < c.toNat ∧ c.toNat < 0x110000 := c.valid
  omega

/-- The bytes of a character are read as the character. -/
theorem piecesFrom_utf8EncodeChar (c : Char) (rest : List UInt8) :
    piecesFrom none (String.utf8EncodeChar c ++ rest) = some c :: piecesFrom none rest := by
  obtain ⟨hsurrogate, hbound⟩ := toNat_bounds c
  have hread {code : Nat} (h : code = c.toNat) : Char.ofNat code = c := by rw [h, Char.ofNat_toNat]
  rw [utf8EncodeChar_eq]
  split_ifs with hone htwo hthree <;> simp only [List.cons_append, List.nil_append]
  · rw [piecesFrom_of_start_complete (start_one (by omega)), hread rfl]
  · rw [piecesFrom_of_start_more (start_two (by omega) (by omega)),
      piecesFrom_of_next_complete (next_of_mem (by simp) (by simp; omega)), hread (by omega)]
  -- Here the second byte has bounds of its own, which shorter codes, surrogates and too large codes would miss.
  · rw [piecesFrom_of_start_more (start_three (by omega) (by omega)),
      piecesFrom_of_next_more (next_of_mem (by split <;> simp; omega) (by split <;> simp <;> omega)),
      piecesFrom_of_next_complete (next_of_mem (by simp) (by simp; omega)), hread (by omega)]
  · rw [piecesFrom_of_start_more (start_four (by omega) (by omega)),
      piecesFrom_of_next_more (next_of_mem (by split <;> simp; omega) (by split <;> simp <;> omega)),
      piecesFrom_of_next_more (next_of_mem (by simp) (by simp; omega)),
      piecesFrom_of_next_complete (next_of_mem (by simp) (by simp; omega)), hread (by omega)]

end Characters

/-! ## Texts -/

theorem piecesFrom_flatMap (chars : List Char) :
    piecesFrom none (chars.flatMap String.utf8EncodeChar) = chars.map some := by
  induction chars with
  | nil => rfl
  | cons c chars ih => rw [List.flatMap_cons, piecesFrom_utf8EncodeChar, ih, List.map_cons]

/-- The bytes of a text are read as the text. -/
theorem decodeLossy_encode (s : String) : decodeLossy (encode s) = s := by
  rw [decodeLossy, pieces, encode, piecesFrom_flatMap, List.map_map]
  simp [Function.comp_def]

/-- Lenient reading loses nothing exactly if the bytes are those of a text. -/
theorem encode_decodeLossy_iff {bytes : List UInt8} :
    encode (decodeLossy bytes) = bytes ↔ ∃ s : String, encode s = bytes := by
  refine ⟨fun h => ⟨_, h⟩, ?_⟩
  rintro ⟨s, rfl⟩
  rw [decodeLossy_encode]

/-- There are as many bytes as characters exactly if all characters are ASCII. -/
theorem length_flatMap_utf8EncodeChar (chars : List Char) :
    chars.length ≤ (chars.flatMap String.utf8EncodeChar).length ∧
      ((chars.flatMap String.utf8EncodeChar).length = chars.length ↔ isAscii chars = true) := by
  induction chars with
  | nil => simp [isAscii]
  | cons c chars ih =>
    simp only [List.flatMap_cons, List.length_append, List.length_cons, isAscii, List.all_cons, Bool.and_eq_true,
      decide_eq_true_eq] at ih ⊢
    by_cases hascii : c.toNat < 0x80
    · simp only [utf8EncodeChar_of_ascii hascii, List.length_singleton, hascii, true_and, ← ih.2]
      omega
    · have hlong := (utf8EncodeChar_of_not_ascii (Nat.not_lt.1 hascii)).1
      simp only [hascii, false_and, iff_false]
      omega

theorem length_le_length_encode (s : String) : s.length ≤ (encode s).length := by
  rw [← String.length_toList]
  exact (length_flatMap_utf8EncodeChar s.toList).1

theorem length_encode_eq_iff {s : String} : (encode s).length = s.length ↔ isAscii s.toList = true := by
  rw [← String.length_toList]
  exact (length_flatMap_utf8EncodeChar s.toList).2

end Specializer.Text.Utf8
