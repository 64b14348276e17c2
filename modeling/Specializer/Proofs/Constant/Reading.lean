import Mathlib.Data.Set.Function
import Specializer.Proofs.Builtin.WrittenIntegers
import Specializer.Proofs.Constant.Parts
import Specializer.Proofs.Text.Quoted

/-!
# Reading literals

A reader for the literals that the newer version writes. It cuts the text into tokens (`token?`) and keeps the containers
that are still open on a stack (`Progress`): a value joins the innermost open container, and a closing bracket turns that
container into a value. Commas, colons and blanks only keep tokens apart. The reader recovers every value without floats
and long integers from its text (`read?_render`), so different values have different texts.

A text `Conveys` values if reading it adds them to what is being read, whatever stands behind it. Numbers need a gap or a
bracket behind them (`Ends`), and every literal has one there.
-/

namespace Specializer.Constant

/-! ## The reader -/

/-- The containers that are written with brackets. -/
inductive Bracket where
  | tuple
  | list
  | dict
  | range
  deriving DecidableEq, Repr

/-- What is written before the content of a container. -/
def Bracket.opener : Bracket → List Char
  | .tuple => ['(']
  | .list => ['[']
  | .dict => ['\x7b']
  | .range => ['r', 'a', 'n', 'g', 'e', '(']

/-- Keys and values in turn as entries. -/
def entriesOf? : List Constant → Option (List (Constant × Constant))
  | [] => some []
  | key :: value :: rest => (entriesOf? rest).map ((key, value) :: ·)
  | [_] => Option.none

/-- The value that a container makes of its content. -/
def Bracket.close? : Bracket → List Constant → Option Constant
  | .tuple, content => some (.tuple content)
  | .list, content => some (.list content)
  | .dict, content => (entriesOf? content).map .dict
  | .range, [.int start, .int stop] => some (.range ⟨start, stop, 1⟩)
  | .range, [.int start, .int stop, .int step] => some (.range ⟨start, stop, step⟩)
  | .range, _ => Option.none

/-- The pieces of a literal. -/
inductive Token where
  | value (c : Constant)
  | opening (bracket : Bracket)
  | closing
  | gap

/-- Whether a character belongs to an integer. -/
def isNumeral (c : Char) : Bool := c == '-' || c.isDigit

/-- A token that is no integer, and what follows. -/
def symbol? : List Char → Option (Token × List Char)
  | '(' :: rest => some (.opening .tuple, rest)
  | '[' :: rest => some (.opening .list, rest)
  | '\x7b' :: rest => some (.opening .dict, rest)
  | 'r' :: 'a' :: 'n' :: 'g' :: 'e' :: '(' :: rest => some (.opening .range, rest)
  | ')' :: rest | ']' :: rest | '\x7d' :: rest => some (.closing, rest)
  | ',' :: rest | ':' :: rest | ' ' :: rest => some (.gap, rest)
  | 'N' :: 'o' :: 'n' :: 'e' :: rest => some (.value .none, rest)
  | 'T' :: 'r' :: 'u' :: 'e' :: rest => some (.value (.bool true), rest)
  | 'F' :: 'a' :: 'l' :: 's' :: 'e' :: rest => some (.value (.bool false), rest)
  | 'b' :: quote :: rest => (Text.unquote quote rest).map fun p => (.value (.bytes (Text.bytesOf p.1)), p.2)
  | quote :: rest => (Text.unquote quote rest).map fun p => (.value (.str (String.ofList p.1)), p.2)
  | [] => Option.none

/-- The first token of a text, and what follows. -/
def token? (cs : List Char) : Option (Token × List Char) :=
  match cs.takeWhile isNumeral with
  | [] => symbol? cs
  | numeral => match IntegerLiteral.read .python3 10 (String.ofList numeral) with
    | .value n => some (.value (.int n), cs.dropWhile isNumeral)
    | _ => Option.none

/-- What has been read: the content of the innermost open container, the last value first, and around it the containers
that are open with what came before them. -/
structure Progress where
  content : List Constant := []
  around : List (Bracket × List Constant) := []

/-- What one more token makes of what has been read. -/
def Progress.step? (p : Progress) : Token → Option Progress
  | .gap => some p
  | .value c => some { p with content := c :: p.content }
  | .opening bracket => some ⟨[], (bracket, p.content) :: p.around⟩
  | .closing => match p.around with
    | [] => Option.none
    | (bracket, before) :: around => (bracket.close? p.content.reverse).map fun c => ⟨c :: before, around⟩

/-- Reads a text to its end. A token takes at least one character. -/
def readFrom (p : Progress) : List Char → Option Progress
  | [] => some p
  | c :: cs => match token? (c :: cs) with
    | Option.none => Option.none
    | some (token, rest) =>
      if rest.length ≤ cs.length then
        match p.step? token with
        | Option.none => Option.none
        | some p => readFrom p rest
      else Option.none
termination_by cs => cs.length
decreasing_by
  simp only [List.length_cons]
  omega

/-- The value that a literal denotes. -/
def read? (text : String) : Option Constant :=
  match readFrom {} text.toList with
  | some ⟨[c], []⟩ => some c
  | _ => Option.none

/-! ## Tokens -/

section Tokens

variable {p p' : Progress} {token : Token} {piece rest : List Char}

theorem readFrom_token (htoken : token? (piece ++ rest) = some (token, rest)) (hpiece : piece ≠ [])
    (hstep : p.step? token = some p') : readFrom p (piece ++ rest) = readFrom p' rest := by
  obtain ⟨c, cs, rfl⟩ := List.exists_cons_of_ne_nil hpiece
  rw [List.cons_append] at htoken ⊢
  rw [readFrom, htoken]
  simp only [hstep]
  rw [if_pos (by rw [List.length_append]; omega)]

theorem readFrom_gap {sep : Char} (h : sep ∈ [',', ':', ' ']) : readFrom p (sep :: rest) = readFrom p rest := by
  have htoken : token? ([sep] ++ rest) = some (.gap, rest) := by
    simp only [List.mem_cons, List.not_mem_nil, or_false] at h
    rcases h with rfl | rfl | rfl <;> rfl
  exact readFrom_token htoken (by simp) rfl

theorem readFrom_opener (bracket : Bracket) :
    readFrom p (bracket.opener ++ rest) = readFrom ⟨[], (bracket, p.content) :: p.around⟩ rest := by
  have htoken : token? (bracket.opener ++ rest) = some (.opening bracket, rest) := by
    cases bracket <;> rfl
  exact readFrom_token htoken (by cases bracket <;> simp [Bracket.opener]) rfl

theorem readFrom_closer {closer : Char} (h : closer ∈ [')', ']', '\x7d']) (hstep : p.step? .closing = some p') :
    readFrom p (closer :: rest) = readFrom p' rest := by
  have htoken : token? ([closer] ++ rest) = some (.closing, rest) := by
    simp only [List.mem_cons, List.not_mem_nil, or_false] at h
    rcases h with rfl | rfl | rfl <;> rfl
  exact readFrom_token htoken (by simp) hstep

end Tokens

/-! ## Texts that convey values -/

/-- No digit follows. -/
def Ends (rest : List Char) : Prop := ∀ c, rest.head? = some c → isNumeral c = false

theorem ends_cons {c : Char} (rest : List Char) (h : isNumeral c = false) : Ends (c :: rest) := by
  rintro _ ⟨⟩
  exact h

/-- Adds values to the innermost open container. -/
def Progress.add (p : Progress) (values : List Constant) : Progress := { p with content := values.reverse ++ p.content }

theorem Progress.add_append (p : Progress) (values values' : List Constant) :
    p.add (values ++ values') = (p.add values).add values' := by
  simp [Progress.add]

/-- Reading a text adds values to what is being read. -/
def Conveys (text : List Char) (values : List Constant) : Prop :=
  ∀ p rest, Ends rest → readFrom p (text ++ rest) = readFrom (p.add values) rest

section Conveys

variable {text text' : List Char} {values values' : List Constant} {c : Constant}

theorem conveys_nil : Conveys [] [] := fun _ _ _ => rfl

/-- A token that is a value. -/
theorem conveys_token (htext : text ≠ []) (h : ∀ rest, Ends rest → token? (text ++ rest) = some (.value c, rest)) :
    Conveys text [c] := fun _ rest hrest => readFrom_token (h rest hrest) htext rfl

/-- Two texts with a gap between them. -/
theorem Conveys.separated (sep : Char) (hsep : sep ∈ [',', ':']) (h : Conveys text values) (h' : Conveys text' values') :
    Conveys (text ++ sep :: ' ' :: text') (values ++ values') := by
  intro p rest hrest
  have hends : ∀ sep ∈ [',', ':'], isNumeral sep = false :=
    List.forall_mem_cons.2 ⟨rfl, List.forall_mem_singleton.2 rfl⟩
  have hgap : sep ∈ [',', ':', ' '] := List.mem_append_left [' '] hsep
  rw [List.append_assoc, List.cons_append, List.cons_append, h p _ (ends_cons _ (hends sep hsep)),
    readFrom_gap hgap, readFrom_gap (by simp), h' _ rest hrest, Progress.add_append]

/-- A text with a comma behind it. -/
theorem Conveys.comma (h : Conveys text values) : Conveys (text ++ [',']) values := by
  intro p rest _
  rw [List.append_assoc, List.singleton_append, h p _ (ends_cons rest rfl), readFrom_gap (by simp)]

/-- Texts with commas between them. -/
theorem conveys_intercalate {α : Type} {write : α → List Char} {denote : α → List Constant} {xs : List α}
    (h : ∀ x ∈ xs, Conveys (write x) (denote x)) : Conveys ([',', ' '].intercalate (xs.map write)) (xs.flatMap denote) := by
  induction xs with
  | nil => exact conveys_nil
  | cons x xs ih =>
    obtain ⟨hx, hxs⟩ := List.forall_mem_cons.1 h
    cases xs with
    | nil => simpa using hx
    | cons y ys => simpa using hx.separated ',' (by simp) (ih hxs)

/-- The text of a container. -/
theorem Conveys.bracketed (bracket : Bracket) (closer : Char) (hcloser : closer ∈ [')', ']', '\x7d'])
    (h : Conveys text values) (hclose : bracket.close? values = some c) :
    Conveys (bracket.opener ++ (text ++ [closer])) [c] := by
  intro p rest _
  have hends : ∀ closer ∈ [')', ']', '\x7d'], isNumeral closer = false :=
    List.forall_mem_cons.2 ⟨rfl, List.forall_mem_cons.2 ⟨rfl, List.forall_mem_singleton.2 rfl⟩⟩
  have hstep : (Progress.add ⟨[], (bracket, p.content) :: p.around⟩ values).step? .closing = some (p.add [c]) := by
    simp [Progress.add, Progress.step?, hclose]
  rw [List.append_assoc, readFrom_opener, List.append_assoc, List.singleton_append,
    h _ _ (ends_cons rest (hends closer hcloser)), readFrom_closer hcloser hstep]

end Conveys

/-! ## Literals convey what they denote -/

section Leaves

theorem isNumeral_toString (n : Int) : ∀ c ∈ (toString n).toList, isNumeral c = true := by
  have hdigits : ∀ c ∈ Nat.toDigits 10 n.natAbs, isNumeral c = true := by
    intro c hc
    have hdigit : c.isDigit = true := Nat.isDigit_of_mem_toDigits (by decide) (by decide) hc
    simp [isNumeral, hdigit]
  rw [IntegerLiteral.toList_toString, IntegerLiteral.signed]
  split
  · exact List.forall_mem_cons.2 ⟨rfl, hdigits⟩
  · exact hdigits

theorem read_toString (n : Int64) : IntegerLiteral.read .python3 10 (toString n.toInt) = .value n := by
  apply IntegerLiteral.read_of_denotes
  rw [IntegerLiteral.toList_toString]
  exact (IntegerLiteral.unsigned_toDigits .python3 10 (by decide) (by decide) _).signed

theorem conveys_int (n : Int64) : Conveys (toString n.toInt).toList [.int n] := by
  have hread := read_toString n
  have hnumeral := isNumeral_toString n.toInt
  have htext : (toString n.toInt).toList ≠ [] := by
    rw [IntegerLiteral.toList_toString, IntegerLiteral.signed]
    split
    · simp
    · exact Nat.toDigits_ne_nil
  refine conveys_token htext fun rest hrest => ?_
  have hstop : rest.takeWhile isNumeral = [] ∧ rest.dropWhile isNumeral = rest := by
    cases rest with
    | nil => exact ⟨rfl, rfl⟩
    | cons c rest => simp [hrest c rfl]
  have htake : ((toString n.toInt).toList ++ rest).takeWhile isNumeral = (toString n.toInt).toList := by
    rw [List.takeWhile_append_of_pos hnumeral, hstop.1, List.append_nil]
  have hdrop : ((toString n.toInt).toList ++ rest).dropWhile isNumeral = rest := by
    rw [List.dropWhile_append_of_pos hnumeral, hstop.2]
  rw [token?, htake, hdrop]
  split
  · next hnil => exact absurd hnil htext
  · rw [String.ofList_toList, hread]

theorem conveys_str (s : String) : Conveys (Text.quoteText .python3 s).toList [.str s] := by
  obtain ⟨quote, body, htext, hquote, hread⟩ := Text.unquote_quoteText s
  rw [htext]
  refine conveys_token (by simp) fun rest _ => ?_
  have hsymbol : token? (quote :: (body ++ rest)) =
      (Text.unquote quote (body ++ rest)).map fun p => (.value (.str (String.ofList p.1)), p.2) := by
    rcases hquote with rfl | rfl <;> rfl
  rw [List.cons_append, hsymbol, hread, Option.map_some, String.ofList_toList]

theorem conveys_bytes (b : List UInt8) : Conveys ("b" ++ Text.quoteBytes b).toList [.bytes b] := by
  obtain ⟨quote, body, content, htext, hquote, hread, hbytes⟩ := Text.unquote_quoteBytes b
  have hmarked : ("b" ++ Text.quoteBytes b).toList = 'b' :: quote :: body := by
    rw [String.toList_append, htext]
    rfl
  rw [hmarked]
  refine conveys_token (by simp) fun rest _ => ?_
  have hsymbol : token? ('b' :: quote :: (body ++ rest)) =
      (Text.unquote quote (body ++ rest)).map fun p => (.value (.bytes (Text.bytesOf p.1)), p.2) := rfl
  rw [List.cons_append, List.cons_append, hsymbol, hread, Option.map_some, hbytes]

theorem conveys_range (r : IntRange) : Conveys (r.render .python3).toList [.range r] := by
  obtain ⟨start, stop, step⟩ := r
  have hbounds := (conveys_int start).separated ',' (by simp) (conveys_int stop)
  by_cases hone : step = 1
  · subst hone
    have hclose : Bracket.range.close? ([.int start] ++ [.int stop]) = some (.range ⟨start, stop, 1⟩) := rfl
    have hconveys := hbounds.bracketed .range ')' (by simp) hclose
    simp only [IntRange.render, if_true, String.toList_append]
    simp only [List.append_assoc] at hconveys ⊢
    exact hconveys
  · have hall := hbounds.separated ',' (by simp) (conveys_int step)
    have hclose : Bracket.range.close? ([.int start] ++ [.int stop] ++ [.int step]) = some (.range ⟨start, stop, step⟩) :=
      rfl
    have hconveys := hall.bracketed .range ')' (by simp) hclose
    simp only [IntRange.render, if_neg hone, String.toList_append]
    simp only [List.append_assoc] at hconveys ⊢
    exact hconveys

end Leaves

section Containers

variable {items : List Constant} {entries : List (Constant × Constant)}

theorem renderItems_eq (version : Version) (items : List Constant) : renderItems version items = items.map (render version) := by
  induction items with
  | nil => rfl
  | cons c items ih => rw [renderItems, ih, List.map_cons]

theorem renderEntries_eq (version : Version) (entries : List (Constant × Constant)) :
    renderEntries version entries = entries.map fun e => e.1.render version ++ ": " ++ e.2.render version := by
  induction entries with
  | nil => rfl
  | cons e entries ih => rw [renderEntries, ih, List.map_cons]

/-- The text between the brackets of a tuple or a list. -/
theorem conveys_items (h : ∀ x ∈ items, Conveys (x.render .python3).toList [x]) :
    Conveys (String.intercalate ", " (renderItems .python3 items)).toList items := by
  have hconveys := conveys_intercalate h
  rw [List.flatMap_singleton'] at hconveys
  rw [String.toList_intercalate, renderItems_eq, List.map_map]
  exact hconveys

/-- A tuple of one member has a comma before its closing bracket. -/
theorem conveys_tuple (h : ∀ x ∈ items, Conveys (x.render .python3).toList [x]) :
    Conveys ((tuple items).render .python3).toList [.tuple items] := by
  by_cases hone : ∃ x, items = [x]
  · obtain ⟨x, rfl⟩ := hone
    have hconveys := (h x (by simp)).comma.bracketed .tuple ')' (by simp) rfl
    simp only [render, String.toList_append, List.append_assoc] at hconveys ⊢
    exact hconveys
  · have htext : (tuple items).render .python3 =
        "(" ++ String.intercalate ", " (renderItems .python3 items) ++ ")" := by
      rw [render]
      exact fun x hx => hone ⟨x, hx⟩
    have hconveys := (conveys_items h).bracketed .tuple ')' (by simp) rfl
    rw [htext]
    simp only [String.toList_append, List.append_assoc]
    exact hconveys

/-- The text between the brackets of a dictionary. -/
theorem conveys_entries (h : ∀ x ∈ (dict entries).members, Conveys (x.render .python3).toList [x]) :
    Conveys (String.intercalate ", " (renderEntries .python3 entries)).toList (dict entries).members := by
  have hentry : ∀ e ∈ entries, Conveys (e.1.render .python3 ++ ": " ++ e.2.render .python3).toList [e.1, e.2] := by
    intro e he
    have hpair := (h e.1 (key_mem_members he)).separated ':' (by simp) (h e.2 (value_mem_members he))
    rw [String.toList_append, String.toList_append, List.append_assoc]
    exact hpair
  rw [String.toList_intercalate, renderEntries_eq, List.map_map]
  exact conveys_intercalate hentry

theorem entriesOf?_members (entries : List (Constant × Constant)) : entriesOf? (dict entries).members = some entries := by
  induction entries with
  | nil => rfl
  | cons e entries ih =>
    have hstep : entriesOf? (dict (e :: entries)).members = (entriesOf? (dict entries).members).map (e :: ·) := rfl
    rw [hstep, ih, Option.map_some]

end Containers

/-- Whether a kind of value has a literal of its own in the newer version: floats are left out, and long integers are
written as integers. -/
def hasLiteral : Constant → Bool
  | .float _ | .long _ => false
  | _ => true

theorem conveys_render {c : Constant} (h : ∀ x ∈ c.parts, x.hasLiteral = true) : Conveys (c.render .python3).toList [c] := by
  induction c using memberwise with
  | step c ih =>
    have hmembers : ∀ x ∈ c.members, Conveys (x.render .python3).toList [x] := fun x hx =>
      ih x hx fun y hy => h y (parts_subset hx hy)
    cases c with
    | none => exact conveys_token (by decide) fun rest _ => rfl
    | bool b => cases b <;> exact conveys_token (by decide) fun rest _ => rfl
    | int n => exact conveys_int n
    | long n => cases h _ (mem_parts_self _)
    | float x => cases h _ (mem_parts_self _)
    | str s => exact conveys_str s
    | bytes b => exact conveys_bytes b
    | range r => exact conveys_range r
    | tuple items => exact conveys_tuple hmembers
    | list items =>
      have hconveys := (conveys_items hmembers).bracketed .list ']' (by simp) rfl
      simp only [render, String.toList_append, List.append_assoc]
      exact hconveys
    | dict entries =>
      have hclose : Bracket.dict.close? (dict entries).members = some (.dict entries) := by
        rw [Bracket.close?, entriesOf?_members, Option.map_some]
      have hconveys := (conveys_entries hmembers).bracketed .dict '\x7d' (by simp) hclose
      simp only [render, String.toList_append, List.append_assoc]
      exact hconveys

theorem read?_render {c : Constant} (h : ∀ x ∈ c.parts, x.hasLiteral = true) : read? (c.render .python3) = some c := by
  have hread := conveys_render h {} [] (by simp [Ends])
  rw [List.append_nil] at hread
  rw [read?, hread, readFrom]
  rfl

/-- **Literals of the newer version can be read in one way only.** The reader recovers every value without floats and long
integers from its text, however deep the value is, so no two of them have the same text; and it recovers every text and
every byte string from its quoted form, whatever characters and bytes these hold. -/
theorem render_python3_readable :
    (∀ c : Constant, (∀ x ∈ c.parts, x.hasLiteral = true) → read? (c.render .python3) = some c) ∧
    Set.InjOn (render .python3) { c | ∀ x ∈ c.parts, x.hasLiteral = true } ∧
    (∀ s, read? (Text.quoteText .python3 s) = some (.str s)) ∧
    ∀ b, read? ("b" ++ Text.quoteBytes b) = some (.bytes b) := by
  refine ⟨fun c => read?_render, fun c hc d hd hsame => ?_, fun s => ?_, fun b => ?_⟩
  · have hread : read? (d.render .python3) = some c := hsame ▸ read?_render hc
    exact Option.some.inj (hread.symm.trans (read?_render hd))
  · exact read?_render (c := .str s) (by simp [parts, hasLiteral])
  · exact read?_render (c := .bytes b) (by simp [parts, hasLiteral])

/-- A key with both quotes, a backslash and a line break in it, and values of the other kinds that have literals. -/
def nestedLiteral : Constant :=
  .dict [(.tuple [.str "it's \"\\\n\""], .list [.bytes [0, 39, 255], .range ⟨0, -5, -1⟩]),
    (.int (-7), .bool true), (.none, .tuple [])]

theorem render_python3_readable_nested : (∀ x ∈ nestedLiteral.parts, x.hasLiteral = true) ∧
    read? (nestedLiteral.render .python3) = some nestedLiteral := by
  have hparts : ∀ x ∈ nestedLiteral.parts, x.hasLiteral = true := by decide
  exact ⟨hparts, render_python3_readable.1 nestedLiteral hparts⟩

end Specializer.Constant
