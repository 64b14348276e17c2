import Specializer.Constant.Basic
import Specializer.Decimal.Shortest
import Specializer.Text.Quoted
import Specializer.Text.Utf8

/-!
# Texts of constants

`render` gives the literal form of a value and `display` the form a program prints, where text stands without quotes.
-/

namespace Specializer

namespace IntRange

/-- The call that makes the range. The older version leaves out a start of zero and normalises the stop to the value
after the last member. -/
def render (version : Version) (r : IntRange) : String :=
  match version with
  | .python3 =>
    if r.step = 1 then s!"range({r.start}, {r.stop})" else s!"range({r.start}, {r.stop}, {r.step})"
  | .python2 =>
    let stop := r.value r.length
    if r.step = 1 then
      if r.start = 0 then s!"xrange({stop})" else s!"xrange({r.start}, {stop})"
    else s!"xrange({r.start}, {stop}, {r.step})"

end IntRange

namespace Constant

mutual

/-- The literal form of a value. -/
def render (version : Version) : Constant → String
  | .none => "None"
  | .bool true => "True"
  | .bool false => "False"
  | .int n => toString n.toInt
  | .long n => if version.isPython3 then toString n.toInt else toString n.toInt ++ "L"
  | .float x => Decimal.renderFloat x
  | .str s => Text.quoteText version s
  | .bytes b => if version.isPython3 then "b" ++ Text.quoteBytes b else Text.quoteBytes b
  | .tuple [item] => "(" ++ item.render version ++ ",)"
  | .tuple items => "(" ++ String.intercalate ", " (renderItems version items) ++ ")"
  | .list items => "[" ++ String.intercalate ", " (renderItems version items) ++ "]"
  | .dict entries => "\x7b" ++ String.intercalate ", " (renderEntries version entries) ++ "\x7d"
  | .range r => r.render version

/-- The literal forms of the items of a container. -/
def renderItems (version : Version) : List Constant → List String
  | [] => []
  | item :: items => item.render version :: renderItems version items

/-- The entries of a dictionary, `key: value` each. -/
def renderEntries (version : Version) : List (Constant × Constant) → List String
  | [] => []
  | (key, value) :: entries => (key.render version ++ ": " ++ value.render version) :: renderEntries version entries

end

/-- The form a program prints. The byte strings of the older version are read as UTF-8. -/
def display (version : Version) : Constant → String
  | .str s => s
  | .bytes b => match version with
    | .python2 => Text.Utf8.decodeLossy b
    | .python3 => render version (.bytes b)
  | c => c.render version

end Constant

end Specializer
