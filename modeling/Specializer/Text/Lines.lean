/-!
# Lines of a text

A line ends at a newline or at the end of the text; a carriage return right before the newline belongs to the end of
the line. A text that ends with a newline has no empty last line.
-/

namespace Specializer.Text

/-- The line collected in reverse, without the carriage return a newline follows. -/
def closeLine : List Char → String
  | '\r' :: rest => String.ofList rest.reverse
  | chars => String.ofList chars.reverse

/-- Splits what follows; `pending` holds the open line in reverse. -/
def linesFrom (pending : List Char) : List Char → List String
  | [] => if pending.isEmpty then [] else [String.ofList pending.reverse]
  | '\n' :: rest => closeLine pending :: linesFrom [] rest
  | c :: rest => linesFrom (c :: pending) rest

/-- The lines of a text, without their ends. -/
def lines (text : String) : List String := linesFrom [] text.toList

end Specializer.Text
