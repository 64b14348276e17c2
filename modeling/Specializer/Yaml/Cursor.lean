import Specializer.Yaml.Character

/-!
# Positions in a document

What is left to read of a document, with the line and the column it begins at.
-/

namespace Specializer.Yaml

/-- A position: the characters behind it, and its line and column, both counted from zero. -/
structure Cursor where
  rest : List Char
  line : Nat := 0
  column : Nat := 0
  deriving Repr, Inhabited

namespace Cursor

/-- Passes one character. -/
def next (cursor : Cursor) : Cursor :=
  match cursor.rest with
  | [] => cursor
  | c :: rest => if isBreak c then ⟨rest, cursor.line + 1, 0⟩ else ⟨rest, cursor.line, cursor.column + 1⟩

/-- Passes a number of characters. -/
def skip (cursor : Cursor) : Nat → Cursor
  | 0 => cursor
  | n + 1 => cursor.next.skip n

/-- Passes the characters in front of an end of what is left. -/
def moveTo (cursor : Cursor) (rest : List Char) : Cursor := cursor.skip (cursor.rest.length - rest.length)

/-- Passing one character drops it. -/
theorem rest_next (cursor : Cursor) : cursor.next.rest = cursor.rest.tail := by
  rcases cursor with ⟨_ | ⟨c, rest⟩, line, column⟩
  · rfl
  · simp only [next]
    split <;> rfl

/-- Passing characters drops that many of them. -/
theorem rest_skip (cursor : Cursor) (n : Nat) : (cursor.skip n).rest = cursor.rest.drop n := by
  induction n generalizing cursor with
  | zero => rfl
  | succ n ih => rw [skip, ih, rest_next, List.drop_tail]

/-- What is left after moving to an end of the text is that end. -/
theorem rest_moveTo (cursor : Cursor) {rest : List Char} (h : rest <:+ cursor.rest) :
    (cursor.moveTo rest).rest = rest := by
  obtain ⟨read, h⟩ := h
  rw [moveTo, rest_skip, ← h]
  simp

end Cursor

end Specializer.Yaml
