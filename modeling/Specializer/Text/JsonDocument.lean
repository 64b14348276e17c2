/-!
# JSON documents

The few JSON shapes a report is made of, and their indented text: two blanks per level, one member a line, and an
empty list or object on a single line.
-/

namespace Specializer.Text

/-- A JSON document of texts, natural numbers, lists and objects with their members in order. -/
inductive JsonDocument where
  | text (s : String)
  | number (n : Nat)
  | list (items : List JsonDocument)
  | object (members : List (String × JsonDocument))

namespace JsonDocument

/-- One character inside a JSON string: short escapes where they exist, `\u00NN` for other control characters. -/
def escapeChar (c : Char) : List Char :=
  if c = '"' then ['\\', '"']
  else if c = '\\' then ['\\', '\\']
  else if c = '\n' then ['\\', 'n']
  else if c = '\r' then ['\\', 'r']
  else if c = '\t' then ['\\', 't']
  else if c.toNat = 0x08 then ['\\', 'b']
  else if c.toNat = 0x0c then ['\\', 'f']
  else if c.toNat < 0x20 then ['\\', 'u', '0', '0', Nat.digitChar (c.toNat / 16), Nat.digitChar (c.toNat % 16)]
  else [c]

/-- A text as a JSON string. -/
def quote (s : String) : String := String.ofList ('"' :: (s.toList.flatMap escapeChar ++ ['"']))

/-- Opens a line at the given depth. -/
def newline (depth : Nat) : String := "\n" ++ String.ofList (List.replicate (2 * depth) ' ')

mutual

/-- The text of a document whose first line stands at the given depth. -/
def renderAt (depth : Nat) : JsonDocument → String
  | .text s => quote s
  | .number n => toString n
  | .list [] => "[]"
  | .list (item :: items) =>
    "[" ++ newline (depth + 1) ++ renderAt (depth + 1) item ++ renderItems depth items ++ newline depth ++ "]"
  | .object [] => "\x7b\x7d"
  | .object ((key, value) :: members) =>
    "\x7b" ++ newline (depth + 1) ++ quote key ++ ": " ++ renderAt (depth + 1) value ++ renderMembers depth members
      ++ newline depth ++ "\x7d"

/-- The further items of a list, each after a comma. -/
def renderItems (depth : Nat) : List JsonDocument → String
  | [] => ""
  | item :: items => "," ++ newline (depth + 1) ++ renderAt (depth + 1) item ++ renderItems depth items

/-- The further members of an object, each after a comma. -/
def renderMembers (depth : Nat) : List (String × JsonDocument) → String
  | [] => ""
  | (key, value) :: members =>
    "," ++ newline (depth + 1) ++ quote key ++ ": " ++ renderAt (depth + 1) value ++ renderMembers depth members

end

/-- The indented text of a document. -/
def render (d : JsonDocument) : String := renderAt 0 d

end JsonDocument

end Specializer.Text
