import Specializer.Signature.Basic

/-!
# The signatures of the specialized builtins

One signature for each builtin that calls are specialized for, the signature shared by the exception types, and the
lookup by the key of a builtin operation.
-/

namespace Specializer.Signature

/-- The call `globals()`. -/
def globals : Signature :=
  { name := "globals", params := [], defaultCount := 0, acceptsKeywords := false, wording := .takes }

/-- The call `locals()`. -/
def locals : Signature :=
  { name := "locals", params := [], defaultCount := 0, acceptsKeywords := false, wording := .takes }

/-- The call `dir([object])`. -/
def dir : Signature :=
  { name := "dir", params := ["object"], defaultCount := 1, acceptsKeywords := false, wording := .expected }

/-- The call `vars([object])`. -/
def vars : Signature :=
  { name := "vars", params := ["object"], defaultCount := 1, acceptsKeywords := false, wording := .expected }

/-- The call `eval(source[, globals[, locals]])`. -/
def eval : Signature :=
  { name := "eval", params := ["source", "globals", "locals"]
    defaultCount := 2, acceptsKeywords := false, wording := .expected }

/-- The call `exec(source[, globals[, locals]])`. -/
def exec : Signature :=
  { name := "exec", params := ["source", "globals", "locals"]
    defaultCount := 2, acceptsKeywords := false, wording := .expected }

/-- The call `execfile(filename[, globals[, locals]])`. -/
def execfile : Signature :=
  { name := "execfile", params := ["filename", "globals", "locals"]
    defaultCount := 2, acceptsKeywords := false, wording := .takes }

/-- The call `open(name[, mode[, buffering]])`. -/
def openFile : Signature :=
  { name := "open", params := ["name", "mode", "buffering"]
    defaultCount := 2, acceptsKeywords := true, wording := .takes }

/-- The call `__import__(name[, globals[, locals[, fromlist[, level]]]])`. -/
def importModule : Signature :=
  { name := "__import__", params := ["name", "globals", "locals", "fromlist", "level"]
    defaultCount := 4, acceptsKeywords := true, wording := .takes }

/-- The call `chr(i)`. -/
def chr : Signature :=
  { name := "chr", params := ["i"]
    defaultCount := 0, acceptsKeywords := false, wording := .takes, evaluator := some .chr }

/-- The call `ord(c)`. -/
def ord : Signature :=
  { name := "ord", params := ["c"]
    defaultCount := 0, acceptsKeywords := false, wording := .takes, evaluator := some .ord }

/-- The call `bin(number)`. -/
def bin : Signature :=
  { name := "bin", params := ["number"]
    defaultCount := 0, acceptsKeywords := false, wording := .takes, evaluator := some .bin }

/-- The call `oct(number)`. -/
def oct : Signature :=
  { name := "oct", params := ["number"]
    defaultCount := 0, acceptsKeywords := false, wording := .takes, evaluator := some .oct }

/-- The call `hex(number)`. -/
def hex : Signature :=
  { name := "hex", params := ["number"]
    defaultCount := 0, acceptsKeywords := false, wording := .takes, evaluator := some .hex }

/-- The call `iter(callable[, sentinel])`. -/
def iter : Signature :=
  { name := "iter", params := ["callable", "sentinel"]
    defaultCount := 1, acceptsKeywords := false, wording := .expected }

/-- The call `next(iterator[, default])`. -/
def next : Signature :=
  { name := "next", params := ["iterator", "default"]
    defaultCount := 1, acceptsKeywords := false, wording := .expected }

/-- The call `range(start[, stop[, step]])`. -/
def range : Signature :=
  { name := "range", params := ["start", "stop", "step"]
    defaultCount := 2, acceptsKeywords := false, wording := .expected, evaluator := some .range }

/-- The call `tuple([sequence])`. -/
def tuple : Signature :=
  { name := "tuple", params := ["sequence"]
    defaultCount := 1, acceptsKeywords := true, wording := .takes, evaluator := some .tuple }

/-- The call `list([sequence])`. -/
def list : Signature :=
  { name := "list", params := ["sequence"]
    defaultCount := 1, acceptsKeywords := true, wording := .takes, evaluator := some .list }

/-- The call `float([x])`. -/
def float : Signature :=
  { name := "float", params := ["x"]
    defaultCount := 1, acceptsKeywords := true, wording := .takes, evaluator := some .float }

/-- The call `str([object])`. -/
def str : Signature :=
  { name := "str", params := ["object"]
    defaultCount := 1, acceptsKeywords := true, wording := .takes, evaluator := some .str }

/-- The call `bool([x])`. -/
def bool : Signature :=
  { name := "bool", params := ["x"]
    defaultCount := 1, acceptsKeywords := true, wording := .takes, evaluator := some .bool }

/-- The call `int([x[, base]])`. -/
def int : Signature :=
  { name := "int", params := ["x", "base"]
    defaultCount := 2, acceptsKeywords := true, wording := .takes, evaluator := some .int }

/-- The call `long([x[, base]])`. -/
def long : Signature :=
  { name := "long", params := ["x", "base"]
    defaultCount := 2, acceptsKeywords := true, wording := .takes, evaluator := some .long }

/-- The call `repr(object)`. -/
def repr : Signature :=
  { name := "repr", params := ["object"], defaultCount := 0, acceptsKeywords := false, wording := .takes }

/-- The call `len(object)`. -/
def len : Signature :=
  { name := "len", params := ["object"]
    defaultCount := 0, acceptsKeywords := false, wording := .takes, evaluator := some .len }

/-- One positional argument at most; keywords become entries. -/
def dict : Signature :=
  { name := "dict", params := ["iterable"], defaultCount := 1, acceptsKeywords := true, positionalOnly := true
    starDict := true, wording := .expected, evaluator := some .dict }

/-- The constructor of a builtin exception takes any positional arguments. -/
def ofException (kind : ExceptionKind) : Signature :=
  { name := kind.name, params := [], defaultCount := 0, acceptsKeywords := false, positionalOnly := true
    starList := true, wording := .takes }

/-- The signature behind the key of a builtin operation. -/
def ofKey? : String → Option Signature
  | "chr" => some chr
  | "ord" => some ord
  | "bin" => some bin
  | "oct" => some oct
  | "hex" => some hex
  | "len" => some len
  | "range" => some range
  | "tuple" => some tuple
  | "list" => some list
  | "dict" => some dict
  | "float" => some float
  | "str" => some str
  | "bool" => some bool
  | "int" => some int
  | "long" => some long
  | "import" => some importModule
  | "vars" => some vars
  | "iter1" | "iter2" => some iter
  | "next1" | "next2" => some next
  | _ => none

/-- The signature of a builtin that has no key of its own. -/
def ofName? : String → Option Signature
  | "globals" => some globals
  | "locals" => some locals
  | "dir" => some dir
  | "vars" => some vars
  | "eval" => some eval
  | "exec" => some exec
  | "execfile" => some execfile
  | "open" => some openFile
  | "__import__" => some importModule
  | "iter" => some iter
  | "next" => some next
  | "repr" => some repr
  | _ => none

end Specializer.Signature
