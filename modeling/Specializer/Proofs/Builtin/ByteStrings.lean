import Specializer.Builtin.Evaluate
import Specializer.Proofs.Computation
import Specializer.Proofs.Text.Quoted
import Specializer.Proofs.Text.Utf8

/-!
# Strings of the older version

The strings of the older version are byte strings. A constant holds one either as bytes or, as long as they are UTF-8,
as text (`Constant.content?`). Literals do not tell the two apart: a text is written as its bytes are
(`Text.quoteText_python2`).

The builtins do. `str` turns bytes into text and puts a replacement character where they are none, so it keeps exactly
the bytes of texts (`str_keeps_bytes_iff`). `len`, `list` and `tuple` go by the characters of a text, so they treat it
like its bytes exactly if it is ASCII (`text_counts_bytes_iff`).
-/

namespace Specializer

/-! ## Literals -/

namespace Text

variable {quote c : Char} {b : UInt8}

/-- An ASCII character is written as its code is. -/
theorem quoteByte_ofNat (h : c.toNat < 0x80) : quoteByte quote (UInt8.ofNat c.toNat) = quoteChar .python2 quote c := by
  have hcode : (UInt8.ofNat c.toNat).toNat = c.toNat := UInt8.toNat_ofNat_of_lt' (show _ < 256 by omega)
  have hlow : (0x20 : UInt8) ≤ UInt8.ofNat c.toNat ↔ 0x20 ≤ c.toNat := by rw [UInt8.le_iff_toNat_le, hcode]; rfl
  have hhigh : UInt8.ofNat c.toNat ≤ (0x7e : UInt8) ↔ c.toNat ≤ 0x7e := by rw [UInt8.le_iff_toNat_le, hcode]; rfl
  have hplain : (if 0x20 ≤ c.toNat ∧ c.toNat ≤ 0x7e then [c] else hexEscape c.toNat) =
      if c.toNat < 0x20 ∨ c.toNat = 0x7f then hexEscape c.toNat
      else if c.toNat < 0x7f then [c] else (String.utf8EncodeChar c).flatMap fun b => hexEscape b.toNat := by
    by_cases hcontrol : c.toNat < 0x20 ∨ c.toNat = 0x7f
    · rw [if_pos hcontrol, if_neg (by omega)]
    · rw [if_neg hcontrol, if_pos (by omega), if_pos (by omega)]
  simp only [quoteChar, quoteByte, hcode, hlow, hhigh, Char.ofNat_toNat, Bool.and_eq_true, decide_eq_true_eq, hplain,
    Bool.or_eq_true, beq_iff_eq]

/-- No character outside ASCII has an escape of its own; `other` is what is written for characters without one. -/
theorem special_of_not_ascii (hquote : IsQuote quote) (h : 0x80 ≤ c.toNat) (other : List Char) :
    (if c = '\\' then ['\\', '\\'] else if c = '\n' then ['\\', 'n'] else if c = '\r' then ['\\', 'r']
      else if c = '\t' then ['\\', 't'] else if c = quote then ['\\', c] else other) = other := by
  have hne {d : Char} (hd : d.toNat < 0x80) : c ≠ d := fun heq => Nat.not_le.2 (heq ▸ hd) h
  have hquotes : quote.toNat < 0x80 := by rcases hquote with rfl | rfl <;> decide
  rw [if_neg (hne (by decide)), if_neg (hne (by decide)), if_neg (hne (by decide)), if_neg (hne (by decide)),
    if_neg (hne hquotes)]

theorem quoteByte_of_not_ascii (hquote : IsQuote quote) (h : 0x80 ≤ b.toNat) :
    quoteByte quote b = hexEscape b.toNat := by
  have hhigh : ¬ (decide (0x20 ≤ b) && decide (b ≤ 0x7e)) = true := by
    simp only [Bool.and_eq_true, decide_eq_true_eq, UInt8.le_iff_toNat_le, UInt8.reduceToNat]
    omega
  exact (special_of_not_ascii hquote (by rwa [toNat_charOfNat]) _).trans (if_neg hhigh)

theorem quoteChar_of_not_ascii (hquote : IsQuote quote) (h : 0x80 ≤ c.toNat) :
    quoteChar .python2 quote c = (String.utf8EncodeChar c).flatMap fun b => hexEscape b.toNat := by
  have hcontrol : ¬ (decide (c.toNat < 0x20) || c.toNat == 0x7f) = true := by
    simp only [Bool.or_eq_true, decide_eq_true_eq, beq_iff_eq]
    omega
  exact (special_of_not_ascii hquote h _).trans ((if_neg hcontrol).trans (if_neg (by omega)))

/-- In the older version a character is written as its bytes are. -/
theorem quoteChar_python2 (hquote : IsQuote quote) (c : Char) :
    quoteChar .python2 quote c = (String.utf8EncodeChar c).flatMap (quoteByte quote) := by
  by_cases hascii : c.toNat < 0x80
  · rw [Utf8.utf8EncodeChar_of_ascii hascii, List.flatMap_singleton, quoteByte_ofNat hascii]
  · have hbytes := (Utf8.utf8EncodeChar_of_not_ascii (Nat.not_lt.1 hascii)).2
    rw [quoteChar_of_not_ascii hquote (Nat.not_lt.1 hascii), List.flatMap_def, List.flatMap_def]
    exact congrArg List.flatten (List.map_congr_left fun b hb => (quoteByte_of_not_ascii hquote (hbytes b hb)).symm)

/-- A text holds an ASCII character exactly if its bytes hold the code of it. -/
theorem contains_encode {s : String} (h : c.toNat < 0x80) :
    (Utf8.encode s).contains (UInt8.ofNat c.toNat) = s.toList.contains c := by
  have hcode {d : Char} (hd : d.toNat < 0x80) : (UInt8.ofNat d.toNat).toNat = d.toNat :=
    UInt8.toNat_ofNat_of_lt' (show _ < 256 by omega)
  have hmem (d : Char) : UInt8.ofNat c.toNat ∈ String.utf8EncodeChar d ↔ d = c := by
    by_cases hd : d.toNat < 0x80
    · rw [Utf8.utf8EncodeChar_of_ascii hd, List.mem_singleton, ← UInt8.toNat_inj, hcode h, hcode hd, eq_comm,
        Char.toNat_inj]
    · have hbytes := (Utf8.utf8EncodeChar_of_not_ascii (Nat.not_lt.1 hd)).2
      refine iff_of_false (fun hc => ?_) (fun heq => hd (heq ▸ h))
      have hlow := hbytes _ hc
      rw [hcode h] at hlow
      omega
  rw [Bool.eq_iff_iff, List.contains_iff_mem, List.contains_iff_mem, Utf8.encode, List.mem_flatMap]
  simp [hmem]

/-- **Literals do not tell text from bytes in the older version.** -/
theorem quoteText_python2 (s : String) : quoteText .python2 s = quoteBytes (Utf8.encode s) := by
  have hsingle : (Utf8.encode s).contains 0x27 = s.toList.contains '\'' :=
    contains_encode (show '\''.toNat < 0x80 by decide)
  have hdouble : (Utf8.encode s).contains 0x22 = s.toList.contains '"' :=
    contains_encode (show '"'.toNat < 0x80 by decide)
  have hchar := quoteChar_python2 (isQuote_quoteFor (s.toList.contains '\'') (s.toList.contains '"'))
  simp only [quoteText, quoteBytes, hsingle, hdouble]
  rw [Utf8.encode, List.flatMap_assoc, funext hchar]

end Text

/-! ## The content of strings -/

/-- The bytes of a string of the older version. A text stands for its UTF-8 form. -/
def Constant.content? : Constant → Option (List UInt8)
  | .str s => some (Text.Utf8.encode s)
  | .bytes b => some b
  | _ => Option.none

/-- **`str` keeps the bytes of texts and no others.** In the older version it gives a string for every byte string, and
that string has the same bytes exactly if they are the UTF-8 form of some text. -/
theorem str_keeps_bytes_iff (b : List UInt8) : ∃ result : Constant,
    PureBuiltin.str.evaluate { values := [some (.bytes b)] } .python2 = .ok result ∧
      (result.content? = some b ↔ ∃ s : String, Text.Utf8.encode s = b) :=
  ⟨.str (Text.Utf8.decodeLossy b), rfl, Option.some_inj.trans Text.Utf8.encode_decodeLossy_iff⟩

/-- The byte that `chr` makes of 255 is no text, and `str` makes three others of it. -/
theorem str_replaces_loneByte :
    PureBuiltin.chr.evaluate { values := [some (.int 255)] } .python2 = .ok (.bytes [0xff]) ∧
      PureBuiltin.str.evaluate { values := [some (.bytes [0xff])] } .python2 = .ok (.str "\uFFFD") ∧
      (Constant.str "\uFFFD").content? = some [0xef, 0xbf, 0xbd] ∧
      (Constant.str "\uFFFD").content? ≠ (Constant.bytes [0xff]).content? :=
  ⟨rfl, rfl, rfl, by decide⟩

/-! ## Counting -/

theorem len_evaluate {value : Constant} {n : Nat} (version : Version) (h : value.length? = some n) :
    PureBuiltin.len.evaluate { values := [some value] } version =
      if (n : Int) ≤ Int64.maxValue.toInt then .ok (.int (Int64.ofNat n)) else .error .decline := by
  simp only [PureBuiltin.evaluate, Builtin.len, BoundArguments.getOrDecline, BoundArguments.get?,
    List.getElem?_cons_zero, Option.join_some, ok_bind, h]
  rfl

/-- A text has the length of its bytes exactly if it is ASCII, as long as there is a number for its length. -/
theorem len_evaluate_eq_iff (s : String) :
    PureBuiltin.len.evaluate { values := [some (.str s)] } .python2 =
        PureBuiltin.len.evaluate { values := [some (.bytes (Text.Utf8.encode s))] } .python2 ↔
      Text.isAscii s.toList = true ∨ Int64.maxValue.toInt < s.length := by
  have hmax : Int64.maxValue.toInt = 2 ^ 63 - 1 := by decide
  have hle := Text.Utf8.length_le_length_encode s
  rw [len_evaluate .python2 (show (Constant.str s).length? = some s.length from rfl),
    len_evaluate .python2 (show (Constant.bytes (Text.Utf8.encode s)).length? = some _ from rfl),
    ← Text.Utf8.length_encode_eq_iff]
  by_cases hlength : (s.length : Int) ≤ Int64.maxValue.toInt
  · by_cases hbytes : ((Text.Utf8.encode s).length : Int) ≤ Int64.maxValue.toInt
    · have hvalue {n : Nat} (h : (n : Int) ≤ Int64.maxValue.toInt) : (Int64.ofNat n).toInt = n :=
        Int64.toInt_ofNat_of_lt (by omega)
      rw [if_pos hlength, if_pos hbytes, Except.ok.injEq, Constant.int.injEq, ← Int64.toInt_inj, hvalue hlength,
        hvalue hbytes]
      omega
    · rw [if_pos hlength, if_neg hbytes]
      exact iff_of_false (fun h => by cases h) (by omega)
  · rw [if_neg hlength, if_neg (by omega)]
    exact iff_of_true rfl (.inr (by omega))

/-- One string per character is one string per byte exactly if all characters are ASCII. -/
theorem map_utf8EncodeChar_eq_iff (chars : List Char) :
    chars.map (fun c => some (String.utf8EncodeChar c)) =
        (chars.flatMap String.utf8EncodeChar).map (fun b => some [b]) ↔ Text.isAscii chars = true := by
  constructor
  · intro h
    have hlength := congrArg List.length h
    rw [List.length_map, List.length_map] at hlength
    exact (Text.Utf8.length_flatMap_utf8EncodeChar chars).2.1 hlength.symm
  · intro h
    induction chars with
    | nil => rfl
    | cons c chars ih =>
      simp only [Text.isAscii, List.all_cons, Bool.and_eq_true, decide_eq_true_eq] at h ih
      rw [List.map_cons, List.flatMap_cons, List.map_append, ih h.2, Text.Utf8.utf8EncodeChar_of_ascii h.1]
      rfl

/-- **Texts are counted by their characters.** In the older version the literal of a text is the one of its bytes; but
`len` counts characters, and `list` and `tuple` give one string per character. So they treat a text like its bytes
exactly if it is ASCII; of texts that are too long to be counted, `len` knows neither number. -/
theorem text_counts_bytes_iff (s : String) :
    (Constant.str s).render .python2 = (Constant.bytes (Text.Utf8.encode s)).render .python2 ∧
    PureBuiltin.len.evaluate { values := [some (.str s)] } .python2 =
      (if (s.length : Int) ≤ Int64.maxValue.toInt then .ok (.int (Int64.ofNat s.length)) else .error .decline) ∧
    (PureBuiltin.len.evaluate { values := [some (.str s)] } .python2 =
        PureBuiltin.len.evaluate { values := [some (.bytes (Text.Utf8.encode s))] } .python2 ↔
      Text.isAscii s.toList = true ∨ Int64.maxValue.toInt < s.length) ∧
    ∃ items : List Constant,
      PureBuiltin.list.evaluate { values := [some (.str s)] } .python2 = .ok (.list items) ∧
      PureBuiltin.tuple.evaluate { values := [some (.str s)] } .python2 = .ok (.tuple items) ∧
      items.map Constant.content? = s.toList.map (fun c => some (String.utf8EncodeChar c)) ∧
      (items.map Constant.content? = (Text.Utf8.encode s).map (fun b => some [b]) ↔ Text.isAscii s.toList = true) := by
  have hrender : (Constant.str s).render .python2 = (Constant.bytes (Text.Utf8.encode s)).render .python2 := by
    rw [Constant.render, Constant.render, Text.quoteText_python2]
    rfl
  have hcontent : (s.toList.map fun c => Constant.str (String.singleton c)).map Constant.content? =
      s.toList.map fun c => some (String.utf8EncodeChar c) := by
    simp [Function.comp_def, Constant.content?, Text.Utf8.encode]
  refine ⟨hrender, len_evaluate .python2 rfl, len_evaluate_eq_iff s, _, rfl, rfl, hcontent, ?_⟩
  rw [hcontent]
  exact map_utf8EncodeChar_eq_iff s.toList

/-- The bytes of an accented letter are neither counted nor listed, although its literal shows them. -/
theorem accent_countsOnce :
    (Constant.str "é").render .python2 = "'\\xc3\\xa9'" ∧ Text.Utf8.encode "é" = [0xc3, 0xa9] ∧
    PureBuiltin.len.evaluate { values := [some (.str "é")] } .python2 = .ok (.int 1) ∧
    PureBuiltin.len.evaluate { values := [some (.bytes [0xc3, 0xa9])] } .python2 = .ok (.int 2) ∧
    PureBuiltin.list.evaluate { values := [some (.str "é")] } .python2 = .ok (.list [.str "é"]) ∧
    PureBuiltin.tuple.evaluate { values := [some (.str "é")] } .python2 = .ok (.tuple [.str "é"]) :=
  ⟨by decide, by decide, rfl, rfl, rfl, rfl⟩

end Specializer
