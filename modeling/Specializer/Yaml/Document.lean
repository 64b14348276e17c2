import Specializer.Yaml.Lexer
import Specializer.Yaml.Node

/-!
# Documents

A text holds at most one document, which is a node in block style. Directives may stand in front of it, and marks may
start and end it. What is not written, such as a value missing behind its key, is the empty node.
-/

namespace Specializer.Yaml

/-- What is left to read of a document, and what its names mean. -/
structure DocumentState where
  tokens : List Token
  /-- The tag handles and what they stand for. -/
  handles : List (String × List UInt8) := []
  /-- The anchors given so far, each with its number. -/
  anchors : List (String × Nat) := []

/-- Reading a document; it fails where the document is malformed. -/
abbrev DocumentM := StateT DocumentState Option

namespace DocumentM

/-- The next token. -/
def peek : DocumentM Token := return (← get).tokens.head?.getD .streamEnd

/-- Passes the next token. -/
def advance : DocumentM Unit := modify fun s => { s with tokens := s.tokens.tail }

/-- Gives an anchor to what follows. Its number is that of the names before it, so a name that is given again takes a
number that the next new name shares. -/
def giveAnchor (name : String) : DocumentM Nat := do
  let s ← get
  let number := s.anchors.length
  let anchors :=
    if s.anchors.any (·.1 == name) then s.anchors.map fun a => if a.1 == name then (name, number) else a
    else s.anchors ++ [(name, number)]
  set { s with anchors }
  return number

/-- The number of an anchor that was given before. -/
def anchorNumber (name : String) : DocumentM Nat := do
  match (← get).anchors.find? (·.1 == name) with
  | some (_, number) => return number
  | none => failure

/-- What a tag stands for. -/
def expandTag (tag : WrittenTag) : DocumentM (List UInt8) := do
  if tag.handle.isEmpty then return tag.suffix
  match (← get).handles.find? (·.1 == tag.handle) with
  | some (_, expansion) => return expansion ++ tag.suffix
  | none => failure

/-- An anchor, if one stands here. -/
def anchorHere : DocumentM (Option Nat) := do
  match ← peek with
  | .anchor name =>
    advance
    return some (← giveAnchor name)
  | _ => return none

/-- A tag, if one stands here. -/
def tagHere : DocumentM (Option (List UInt8)) := do
  match ← peek with
  | .tag tag =>
    advance
    return some (← expandTag tag)
  | _ => return none

/-- The anchor and the tag of a node, in either order. -/
def properties : DocumentM (Option Nat × Option (List UInt8)) := do
  match ← anchorHere with
  | some anchor => return (some anchor, ← tagHere)
  | none =>
    match ← tagHere with
    | some tag => return (← anchorHere, some tag)
    | none => return (none, none)

/-- Whether a token can only follow an item of a block. -/
def endsItem : Token → Bool
  | .blockEntry | .blockEnd => true
  | _ => false

/-- Whether a token can only follow a key or a value of a block. -/
def endsField : Token → Bool
  | .key | .value | .blockEnd => true
  | _ => false

/-- Whether a token can only follow an entry of a flow collection. -/
def endsFlow (close : Token) (token : Token) : Bool := token == .flowEntry || token == close

mutual

/-- A node; blocks are admitted in block style only, and a block sequence without indentation as a key or a value. -/
def node : Nat → Bool → Bool → DocumentM Node
  | 0, _, _ => failure
  | fuel + 1, inBlock, afterKey => do
    if let .reference name ← peek then
      advance
      return .reference (← anchorNumber name)
    let (anchor, tag) ← properties
    let content ← match ← peek with
      | .scalar style text => do
        advance
        pure (.scalar style tag text)
      | .flowSequenceStart => do
        advance
        pure (.sequence (← flowItems fuel true))
      | .flowMappingStart => do
        advance
        pure (.mapping (← flowEntries fuel true))
      | token =>
        if afterKey && token = .blockEntry then do
          pure (.sequence (← unindentedItems fuel))
        else if inBlock && token = .blockSequenceStart then do
          advance
          pure (.sequence (← blockItems fuel))
        else if inBlock && token = .blockMappingStart then do
          advance
          pure (.mapping (← blockEntries fuel))
        else if anchor.isSome || tag.isSome then pure (.scalar .plain tag "")
        else failure
    return match anchor with
      | some anchor => .anchored anchor content
      | none => content

/-- The items of a block sequence, up to its end. -/
def blockItems : Nat → DocumentM (List Node)
  | 0 => failure
  | fuel + 1 => do
    match ← peek with
    | .blockEntry =>
      advance
      let item ← if endsItem (← peek) then pure .empty else node fuel true false
      return item :: (← blockItems fuel)
    | .blockEnd =>
      advance
      return []
    | _ => failure

/-- The items of a block sequence that is indented like the keys around it. -/
def unindentedItems : Nat → DocumentM (List Node)
  | 0 => failure
  | fuel + 1 => do
    match ← peek with
    | .blockEntry =>
      advance
      let next ← peek
      let item ← if endsItem next || endsField next then pure .empty else node fuel true false
      return item :: (← unindentedItems fuel)
    | _ => return []

/-- A key or a value of a block mapping. -/
def field : Nat → DocumentM Node
  | 0 => failure
  | fuel + 1 => do
    if endsField (← peek) then return .empty
    node fuel true true

/-- The entries of a block mapping, up to its end. -/
def blockEntries : Nat → DocumentM (List (Node × Node))
  | 0 => failure
  | fuel + 1 => do
    match ← peek with
    | .key =>
      advance
      let key ← field fuel
      let value ← if (← peek) = .value then do
          advance
          field fuel
        else pure .empty
      return (key, value) :: (← blockEntries fuel)
    | .blockEnd =>
      advance
      return []
    | _ => failure

/-- The value behind a key in a flow collection with a closing bracket, if there is a colon. -/
def flowValue : Nat → Token → DocumentM Node
  | 0, _ => failure
  | fuel + 1, close => do
    if (← peek) ≠ .value then return .empty
    advance
    if endsFlow close (← peek) then return .empty
    node fuel false false

/-- The items of a flow sequence, up to its bracket. An item with a key is a mapping of one entry; where that key is
missing, the token in its place is lost. -/
def flowItems : Nat → Bool → DocumentM (List Node)
  | 0, _ => failure
  | fuel + 1, first => do
    if (← peek) = .flowSequenceEnd then
      advance
      return []
    if !first then
      if (← peek) ≠ .flowEntry then failure
      advance
    match ← peek with
    | .flowSequenceEnd =>
      advance
      return []
    | .key =>
      advance
      let next ← peek
      let key ← if next = .value || endsFlow .flowSequenceEnd next then do
          advance
          pure .empty
        else node fuel false false
      let value ← flowValue fuel .flowSequenceEnd
      return .mapping [(key, value)] :: (← flowItems fuel false)
    | _ =>
      let item ← node fuel false false
      return item :: (← flowItems fuel false)

/-- The entries of a flow mapping, up to its bracket. -/
def flowEntries : Nat → Bool → DocumentM (List (Node × Node))
  | 0, _ => failure
  | fuel + 1, first => do
    if (← peek) = .flowMappingEnd then
      advance
      return []
    if !first then
      if (← peek) ≠ .flowEntry then failure
      advance
    match ← peek with
    | .flowMappingEnd =>
      advance
      return []
    | .key =>
      advance
      let next ← peek
      let key ← if next = .value || endsFlow .flowMappingEnd next then pure .empty else node fuel false false
      let value ← flowValue fuel .flowMappingEnd
      return (key, value) :: (← flowEntries fuel false)
    | _ =>
      let key ← node fuel false false
      return (key, .empty) :: (← flowEntries fuel false)

end

/-- The meaning every document gives to the handles of one and of two exclamation marks. -/
def standardHandles : List (String × List UInt8) :=
  [("!", Text.Utf8.encode "!"), ("!!", Text.Utf8.encode "tag:yaml.org,2002:")]

/-- The directives in front of a document: at most one version, which has to be 1.1 or 1.2, and each handle once. -/
def directives (versioned : Bool) (handles : List (String × List UInt8)) :
    List Token → Option (List (String × List UInt8) × List Token)
  | .versionDirective major minor :: rest =>
    if versioned || major != 1 || (minor != 1 && minor != 2) then none else directives true handles rest
  | .tagDirective handle expansion :: rest =>
    if handles.any (·.1 == handle) then none else directives versioned (handles ++ [(handle, expansion)]) rest
  | rest => some (handles, rest)

/-- Whether a token can only stand around a document. -/
def endsDocument : Token → Bool
  | .versionDirective _ _ | .tagDirective _ _ | .documentStart | .documentEnd | .streamEnd => true
  | _ => false

/-- The node of the document, `none` if there is no document. Behind it only marks that end it may follow. -/
def document (fuel : Nat) : DocumentM (Option Node) := do
  let first ← peek
  if first = .streamEnd then return none
  let isExplicit := endsDocument first && first != .documentEnd
  let (handles, rest) ← directives false [] (← get).tokens
  modify fun s => { s with tokens := rest, handles := handles ++ standardHandles }
  if isExplicit then
    if (← peek) ≠ .documentStart then failure
    advance
  let root ← if isExplicit && endsDocument (← peek) then pure .empty else node fuel true false
  let rest := (← get).tokens.dropWhile (· == .documentEnd)
  if rest = [.streamEnd] then return some root else failure

end DocumentM

/-- A document. -/
structure Document where
  root : Node

namespace Document

/-- Reads a text: `none` if it is malformed, and no document if there is nothing in it. Each token is passed after at
most two steps. -/
def ofText? (text : String) : Option (Option Document) := do
  let tokens ← tokens? text
  let (root, _) ← (DocumentM.document (3 * tokens.length + 3)).run { tokens }
  return root.map Document.mk

/-- What a node of the document stands for. -/
def target (d : Document) (node : Node) : Node := d.root.target node

end Document

end Specializer.Yaml
