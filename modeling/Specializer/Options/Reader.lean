import Specializer.Options.Basic
import Specializer.Yaml.Document

/-!
# Reading options

Options from a configuration text. Missing keys keep their defaults and unknown keys are ignored; a known key that is
given twice, or a value of the wrong type, is an error.
-/

namespace Specializer

/-- Why options could not be read. -/
inductive OptionsError where
  /-- The file is missing or unreadable. -/
  | unreadable
  /-- The text is no single document. -/
  | malformed
  | notAMapping
  /-- A key is a collection. -/
  | keyNotText
  | repeatedKey (key : String)
  | wrongType (key : String)
  deriving DecidableEq, Repr

namespace Options

/-- Whether the text of a scalar can be a number or a truth value: it is plain, or a literal block under the tag of such
values. -/
def isTyped (tag : String) (style : Yaml.ScalarStyle) (given : Option (List UInt8)) : Bool :=
  style = .plain || (style = .literal && given = some (Text.Utf8.encode ("tag:yaml.org,2002:" ++ tag)))

/-- A truth value: `true` or `false`, in lower case, capitalised or in capitals. -/
def readBool? : Yaml.Node → Option Bool
  | .scalar style tag text =>
    if !isTyped "bool" style tag then none
    else match text with
      | "true" | "True" | "TRUE" => some true
      | "false" | "False" | "FALSE" => some false
      | _ => none
  | _ => none

/-- The number of a string of digits in a radix of at most sixteen. -/
def readDigits? (radix : Nat) (digits : List Char) : Option Nat :=
  if digits.isEmpty then none
  else digits.foldlM (fun n c => ((Yaml.hexValue? c).filter (· < radix)).map (radix * n + ·)) 0

/-- An unsigned 64-bit number with an optional plus, in decimal without zeros in front, or with a mark for another
radix. -/
def readCount? : Yaml.Node → Option Nat
  | .scalar style tag text =>
    if !isTyped "int" style tag then none
    else
      let unsigned := match text.toList with
        | '+' :: rest => rest
        | cs => cs
      let number? := match unsigned with
        | '0' :: 'x' :: digits => readDigits? 16 digits
        | '0' :: 'o' :: digits => readDigits? 8 digits
        | '0' :: 'b' :: digits => readDigits? 2 digits
        | ['0'] => some 0
        | '0' :: _ => none
        | digits => readDigits? 10 digits
      number?.filter (· < UInt64.size)
  | _ => none

/-- The name behind the exclamation mark of a tag of the document's own, which is the empty name for the mark alone.
Octets that are no text are no name. -/
def ownTag? : Option (List UInt8) → Option String
  | some (mark :: name) => if mark = '!'.toUInt8 then Text.Utf8.decode? name else none
  | _ => none

/-- A version by its name: the text of a scalar, or its tag when nothing but a null follows. -/
def readVersion? : Yaml.Node → Option Version
  | .scalar style tag text =>
    match ownTag? tag with
    | none => Version.ofName? text
    | some name =>
      if style = .plain && ["", "~", "null", "Null", "NULL"].contains text then Version.ofName? name else none
  | _ => none

/-- A list of scalars as texts; an empty value is the empty list. -/
def readTexts? (document : Yaml.Document) (value : Yaml.Node) : Option (List String) :=
  match value with
  | .sequence items => items.mapM fun item => (document.target item).text?
  | _ => if value.isEmpty then some [] else none

/-- Sets the option behind a key. An unknown key changes nothing. -/
def set? (o : Options) (document : Yaml.Document) (key : String) (value : Yaml.Node) : Option Options :=
  match key with
  | "python_version" => (readVersion? value).map fun version => { o with version }
  | "enable_builtin_replacement" => (readBool? value).map fun b => { o with builtinReplacement := b }
  | "enable_exception_name_replacement" => (readBool? value).map fun b => { o with exceptionNameReplacement := b }
  | "enable_constant_folding" => (readBool? value).map fun b => { o with constantFolding := b }
  | "max_passes" => (readCount? value).map fun n => { o with maxPasses := n }
  | "search_paths" => (readTexts? document value).map fun paths => { o with searchPaths := paths }
  | _ => some o

/-- The keys that set an option. -/
def keys : List String :=
  ["python_version", "enable_builtin_replacement", "enable_exception_name_replacement", "enable_constant_folding",
    "max_passes", "search_paths"]

/-- Sets options in order; `seen` holds the keys before. -/
def readEntries (document : Yaml.Document) (o : Options) (seen : List String) :
    List (Yaml.Node × Yaml.Node) → Except OptionsError Options
  | [] => return o
  | (key, value) :: rest =>
    match (document.target key).text? with
    | none => throw .keyNotText
    | some key =>
      if keys.contains key && seen.contains key then throw (.repeatedKey key)
      else match o.set? document key (document.target value) with
        | none => throw (.wrongType key)
        | some o => readEntries document o (key :: seen) rest

/-- Reads options from a configuration text. A text without content gives the defaults. -/
def ofYaml (text : String) : Except OptionsError Options :=
  match Yaml.Document.ofText? text with
  | none => throw .malformed
  | some none => return {}
  | some (some document) =>
    match document.target document.root with
    | .mapping entries => readEntries document {} [] entries
    | root => if root.isEmpty then return {} else throw .notAMapping

/-- Reads options from the content of a file, `none` if there is no such file. -/
def ofFile : Option String → Except OptionsError Options
  | none => throw .unreadable
  | some text => ofYaml text

end Options

end Specializer
