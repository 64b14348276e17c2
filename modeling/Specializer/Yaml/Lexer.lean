import Specializer.Yaml.Cursor
import Specializer.Yaml.Property
import Specializer.Yaml.Scalar.Block
import Specializer.Yaml.Scalar.Plain
import Specializer.Yaml.Scalar.Quoted

/-!
# From characters to tokens

Dividing a document into tokens needs more than the characters at hand: blocks open and close by indentation, and a
scalar or a collection shows itself to be a key only by the colon behind it. So the lexer keeps the columns of the open
blocks and, for each level of flow collections, the place where a key may have begun; when the colon comes, the key
token is put in at that place.
-/

namespace Specializer.Yaml

/-- A place where a key may have begun. -/
structure PossibleKey where
  /-- Whether nothing but a key can stand here: it begins at the column of the block around it. -/
  required : Bool
  /-- The number of tokens in front of it. -/
  position : Nat
  line : Nat
  column : Nat
  deriving Repr, Inhabited

/-- A key is written on one line and within this many characters. -/
def PossibleKey.maxLength : Nat := 1024

/-- Whether a colon at the cursor comes too late for the key. -/
def PossibleKey.isStale (key : PossibleKey) (cursor : Cursor) : Bool :=
  key.line < cursor.line || key.column + maxLength < cursor.column

/-- A document in the course of being divided into tokens. -/
structure Lexer where
  cursor : Cursor
  tokens : Array Token := #[]
  /-- The columns of the open blocks, innermost first. -/
  indents : List Nat := []
  /-- Whether a key may begin at the cursor. -/
  keyAllowed : Bool := true
  /-- Where a key may have begun on the level of the cursor. -/
  key : Option PossibleKey := none
  /-- The same for the levels around the open flow collections, innermost first. -/
  outerKeys : List (Option PossibleKey) := []

namespace Lexer

/-- Whether the cursor stands inside a flow collection. -/
def inFlow (l : Lexer) : Bool := !l.outerKeys.isEmpty

/-- The least column of a line that continues a plain scalar of the innermost block. -/
def contentColumn (l : Lexer) : Nat :=
  match l.indents with
  | [] => 0
  | column :: _ => column + 1

/-- Adds a token. -/
def emit (l : Lexer) (token : Token) : Lexer := { l with tokens := l.tokens.push token }

/-- Passes a number of characters. -/
def skip (l : Lexer) (n : Nat) : Lexer := { l with cursor := l.cursor.skip n }

/-- Adds a token that reaches up to an end of the text. -/
def emitTo (l : Lexer) (token : Token) (rest : List Char) : Lexer :=
  { l.emit token with cursor := l.cursor.moveTo rest }

/-- Passes blanks, comments and line breaks. Tabs count as blanks where no key may begin; after a line break in block
style a key may. A byte order mark may start a line. -/
def passGap (inFlow keyAllowed inComment : Bool) (line column : Nat) : List Char → Bool × Cursor
  | [] => (keyAllowed, ⟨[], line, column⟩)
  | c :: rest =>
    if isBreak c then passGap inFlow (keyAllowed || !inFlow) false (line + 1) 0 rest
    else if inComment || c == '#' then passGap inFlow keyAllowed true line (column + 1) rest
    else if c == ' ' || (c == '\t' && (inFlow || !keyAllowed)) || (c == '\ufeff' && column == 0) then
      passGap inFlow keyAllowed false line (column + 1) rest
    else (keyAllowed, ⟨c :: rest, line, column⟩)

/-- Gives up a key for which no colon came in time. A required one is an error. -/
def dropStale (cursor : Cursor) : Option PossibleKey → Option (Option PossibleKey)
  | none => some none
  | some key =>
    if !key.isStale cursor then some (some key)
    else if key.required then none
    else some none

/-- Closes the blocks that are indented deeper than a column, or all. Flow collections do not care for indentation. -/
def closeBlocks (l : Lexer) (column : Option Nat) : Lexer :=
  if l.inFlow then l
  else
    let stay := match column with
      | none => []
      | some column => l.indents.dropWhile (column < ·)
    let closed := l.indents.length - stay.length
    { l with indents := stay, tokens := l.tokens ++ (List.replicate closed Token.blockEnd).toArray }

/-- Opens a block at a column, with its token in front of others, unless one at that column is open. -/
def openBlock (l : Lexer) (column position : Nat) (token : Token) : Lexer :=
  if !l.inFlow && l.indents.head?.all (· < column) then
    { l with indents := column :: l.indents, tokens := l.tokens.insertIdxIfInBounds position token }
  else l

/-- Gives up the key on the level of the cursor. A required one is an error. -/
def dropKey (l : Lexer) : Option Lexer :=
  if l.key.any (·.required) then none else some { l with key := none }

/-- Notes that a key may begin at the cursor, if it may. -/
def noteKey (l : Lexer) : Option Lexer :=
  if !l.keyAllowed then some l
  else l.dropKey.map fun l =>
    { l with key := some {
        required := !l.inFlow && l.indents.head? == some l.cursor.column
        position := l.tokens.size
        line := l.cursor.line
        column := l.cursor.column } }

/-- A directive or the mark that starts or ends a document: all blocks end before it. -/
def atDocumentEdge (l : Lexer) : Option Lexer :=
  (l.closeBlocks none).dropKey.map fun l => { l with keyAllowed := false }

/-- The bracket that opens a flow collection. -/
def openFlow (l : Lexer) (token : Token) : Option Lexer :=
  l.noteKey.map fun l =>
    { (l.skip 1).emit token with keyAllowed := true, outerKeys := l.key :: l.outerKeys, key := none }

/-- The bracket that closes a flow collection. -/
def closeFlow (l : Lexer) (token : Token) : Option Lexer :=
  l.dropKey.map fun l =>
    let l := { (l.skip 1).emit token with keyAllowed := false }
    match l.outerKeys with
    | [] => l
    | key :: outer => { l with key := key, outerKeys := outer }

/-- A comma between the parts of a flow collection. -/
def flowEntry (l : Lexer) : Option Lexer :=
  l.dropKey.map fun l => { (l.skip 1).emit .flowEntry with keyAllowed := true }

/-- A dash in front of an item of a block. -/
def blockEntry (l : Lexer) : Option Lexer :=
  if !l.inFlow && !l.keyAllowed then none
  else
    (l.openBlock l.cursor.column l.tokens.size .blockSequenceStart).dropKey.map fun l =>
      { (l.skip 1).emit .blockEntry with keyAllowed := true }

/-- A question mark in front of a key. -/
def explicitKey (l : Lexer) : Option Lexer :=
  if !l.inFlow && !l.keyAllowed then none
  else
    (l.openBlock l.cursor.column l.tokens.size .blockMappingStart).dropKey.map fun l =>
      { (l.skip 1).emit .key with keyAllowed := !l.inFlow }

/-- A colon. It makes what may have been a key one, or follows a key with a question mark. -/
def valueMark (l : Lexer) : Option Lexer :=
  match l.key with
  | some key =>
    let l := { l with tokens := l.tokens.insertIdxIfInBounds key.position .key, key := none, keyAllowed := false }
    some (((l.openBlock key.column key.position .blockMappingStart).skip 1).emit .value)
  | none =>
    if !l.inFlow && !l.keyAllowed then none
    else
      let l := l.openBlock l.cursor.column l.tokens.size .blockMappingStart
      some { (l.skip 1).emit .value with keyAllowed := !l.inFlow }

/-- A token that may begin a key and reaches up to an end of the text. -/
def keyPart (l : Lexer) (part : Option (Token × List Char)) : Option Lexer := do
  let l ← l.noteKey
  let (token, rest) ← part
  return { l.emitTo token rest with keyAllowed := false }

/-- A plain scalar. If a line ended behind it, a key may begin there. -/
def plainScalar (l : Lexer) : Option Lexer := do
  let l ← l.noteKey
  let scalar ← plain? l.inFlow l.contentColumn l.cursor.rest
  return { l.emitTo (.scalar .plain scalar.text) scalar.rest with keyAllowed := scalar.endedLine }

/-- A block scalar, behind its indicator. -/
def blockScalar (l : Lexer) (style : ScalarStyle) (rest : List Char) : Option Lexer := do
  let l ← l.dropKey
  let (text, rest) ← block? (style == .literal) l.indents.head? rest
  return { l.emitTo (.scalar style text) rest with keyAllowed := true }

/-- Moves to the next token. Keys that are late are given up, and blocks that end by indentation are closed. -/
def approach (l : Lexer) : Option Lexer := do
  let (keyAllowed, cursor) := passGap l.inFlow l.keyAllowed false l.cursor.line l.cursor.column l.cursor.rest
  let key ← dropStale cursor l.key
  let outerKeys ← l.outerKeys.mapM (dropStale cursor)
  return closeBlocks { l with cursor, keyAllowed, key, outerKeys } (some cursor.column)

/-- Reads the token that begins with a character. -/
def token (l : Lexer) (c : Char) (rest : List Char) : Option Lexer :=
  let startsLine := l.cursor.column == 0
  if startsLine && c == '%' then do
    let l ← l.atDocumentEdge
    let (token, rest) ← directive? rest
    return l.emitTo token rest
  else if startsLine && isTriple '-' (c :: rest) then l.atDocumentEdge.map fun l => (l.skip 3).emit .documentStart
  else if startsLine && isTriple '.' (c :: rest) then l.atDocumentEdge.map fun l => (l.skip 3).emit .documentEnd
  else if c == '[' then l.openFlow .flowSequenceStart
  else if c == '\x7b' then l.openFlow .flowMappingStart
  else if c == ']' then l.closeFlow .flowSequenceEnd
  else if c == '\x7d' then l.closeFlow .flowMappingEnd
  else if c == ',' then l.flowEntry
  else if c == '-' && atGap rest then l.blockEntry
  else if c == '?' && (l.inFlow || atGap rest) then l.explicitKey
  else if c == ':' && (l.inFlow || atGap rest) then l.valueMark
  else if c == '*' then l.keyPart ((anchorName? rest).map fun (name, rest) => (.reference name, rest))
  else if c == '&' then l.keyPart ((anchorName? rest).map fun (name, rest) => (.anchor name, rest))
  else if c == '!' then l.keyPart ((tag? l.inFlow rest).map fun (tag, rest) => (.tag tag, rest))
  else if c == '|' && !l.inFlow then l.blockScalar .literal rest
  else if c == '>' && !l.inFlow then l.blockScalar .folded rest
  else if c == '\'' then
    l.keyPart ((quoted? .singleQuoted rest).map fun (text, rest) => (.scalar .singleQuoted text, rest))
  else if c == '"' then
    l.keyPart ((quoted? .doubleQuoted rest).map fun (text, rest) => (.scalar .doubleQuoted text, rest))
  else if startsPlain l.inFlow c rest then l.plainScalar
  else none

/-- Reads tokens up to the end, at most `fuel` of them. -/
def run : Nat → Lexer → Option (List Token)
  | 0, _ => none
  | fuel + 1, l => do
    let l ← l.approach
    match l.cursor.rest with
    | [] =>
      let l ← l.atDocumentEdge
      return (l.emit .streamEnd).tokens.toList
    | c :: rest => run fuel (← l.token c rest)

end Lexer

/-- The tokens of a document. Each takes at least one character. -/
def tokens? (text : String) : Option (List Token) :=
  let chars := text.toList
  if chars.all isAllowed then Lexer.run (chars.length + 1) { cursor := ⟨normalizeBreaks chars, 0, 0⟩ } else none

end Specializer.Yaml
