/-!
# UTF-8

Reading bytes as UTF-8. A malformed stretch is the longest start of a character that cannot be completed, or a single
byte that starts none; strict reading refuses it and lenient reading puts one replacement character in its place.
-/

namespace Specializer.Text.Utf8

/-- A character whose first bytes have been read. -/
structure Pending where
  /-- The bits read so far. -/
  bits : Nat
  /-- How many bytes are still missing, the next one not counted. -/
  left : Nat
  /-- The bounds of the next byte. -/
  lo : UInt8
  hi : UInt8
  deriving DecidableEq, Repr

/-- What one more byte makes of a character. -/
inductive Step where
  | complete (c : Char)
  | more (p : Pending)
  | malformed
  deriving DecidableEq, Repr

/-- The first byte of a character. Its second byte is bounded more tightly where a longer form than needed, a
surrogate or a code point beyond the last one would start. -/
def start (b : UInt8) : Step :=
  if b < 0x80 then .complete (Char.ofNat b.toNat)
  else if b < 0xc2 then .malformed
  else if b < 0xe0 then .more ⟨b.toNat - 0xc0, 0, 0x80, 0xbf⟩
  else if b < 0xf0 then
    .more ⟨b.toNat - 0xe0, 1, if b = 0xe0 then 0xa0 else 0x80, if b = 0xed then 0x9f else 0xbf⟩
  else if b < 0xf5 then
    .more ⟨b.toNat - 0xf0, 2, if b = 0xf0 then 0x90 else 0x80, if b = 0xf4 then 0x8f else 0xbf⟩
  else .malformed

/-- A further byte of an open character. -/
def Pending.next (p : Pending) (b : UInt8) : Step :=
  if p.lo ≤ b ∧ b ≤ p.hi then
    let bits := p.bits * 64 + (b.toNat - 0x80)
    match p.left with
    | 0 => .complete (Char.ofNat bits)
    | left + 1 => .more ⟨bits, left, 0x80, 0xbf⟩
  else .malformed

/-- The characters of a byte string in order, `none` for each malformed stretch. -/
def piecesFrom : Option Pending → List UInt8 → List (Option Char)
  | none, [] => []
  | some _, [] => [none]
  | none, b :: rest =>
    match start b with
    | .complete c => some c :: piecesFrom none rest
    | .more p => piecesFrom (some p) rest
    | .malformed => none :: piecesFrom none rest
  | some p, b :: rest =>
    match p.next b with
    | .complete c => some c :: piecesFrom none rest
    | .more q => piecesFrom (some q) rest
    | .malformed =>
      match start b with
      | .complete c => none :: some c :: piecesFrom none rest
      | .more q => none :: piecesFrom (some q) rest
      | .malformed => none :: none :: piecesFrom none rest

/-- The characters of a whole byte string. -/
def pieces (bytes : List UInt8) : List (Option Char) := piecesFrom none bytes

/-- The text of well-formed bytes. -/
def decode? (bytes : List UInt8) : Option String := (pieces bytes).mapM id |>.map String.ofList

/-- The text of any bytes, with U+FFFD for each malformed stretch. -/
def decodeLossy (bytes : List UInt8) : String :=
  String.ofList ((pieces bytes).map fun c => c.getD '\uFFFD')

/-- The bytes of a text. -/
def encode (s : String) : List UInt8 := s.toList.flatMap String.utf8EncodeChar

end Specializer.Text.Utf8
