import HclLiteral.Escape.Piece
import HclLiteral.Span

/-! Decoding literal text: its value, and for each byte of the value where in the source it comes
from. Strict decoding stops at the first malformed escape, lossy decoding keeps it as it is. -/

namespace HclLiteral

namespace Escape

structure DecodeError where
  offset : Nat
  fault : Fault
deriving DecidableEq, Repr

def quoteLineBreak (c : Char) : String := if c = '\n' then "'\\n'" else "'\\r'"

def DecodeError.message (e : DecodeError) : String :=
  let place := "at offset " ++ toString e.offset
  match e.fault with
  | .trailingBackslash => "trailing backslash " ++ place
  | .unknownLetter letter => "unknown escape " ++ spell letter ++ " " ++ place
  | .tooFewDigits letter expected =>
    spell letter ++ " escape " ++ place ++ " needs " ++ toString expected ++ " hex digits"
  | .notDigit letter digit =>
    spell letter ++ " escape " ++ place ++ " has non-hex digit `" ++ digit.toString ++ "`"
  | .signedDigits letter => spell letter ++ " escape " ++ place ++ " starts with a sign"
  | .lineBreak code => "escape " ++ place ++ " encodes line break " ++ quoteLineBreak code
  | .noCharacter code =>
    "escape " ++ place ++ " encodes invalid code point " ++ Numeral.upperHex code
where
  spell (letter : Char) : String := "`\\" ++ letter.toString ++ "`"

def offsetTable (start : Nat) : List Piece → List Nat
  | [] => [start]
  | piece :: rest => piece.offsets start ++ offsetTable (start + Text.size piece.source) rest

/-- Where a pass over pieces that start at `start` stops: at the first malformed escape, unless it is a
lossy one, which keeps them all. -/
def firstError? (lossy : Bool) (start : Nat) : List Piece → Option DecodeError
  | [] => none
  | .malformed source fault :: rest =>
    if lossy then firstError? lossy (start + Text.size source) rest else some ⟨start, fault⟩
  | piece :: rest => firstError? lossy (start + Text.size piece.source) rest

end Escape

/-- The value of some literal text, and for each byte of it, and for its end, the source offset. -/
structure Decoded where
  value : String
  offsets : List Nat
deriving DecidableEq, Repr

namespace Decoded

def verbatim (text : String) : Decoded := ⟨text, List.range (Text.size text.toList + 1)⟩

def ofPieces (pieces : List Escape.Piece) : Decoded :=
  ⟨String.ofList (pieces.flatMap Escape.Piece.value), Escape.offsetTable 0 pieces⟩

def size (d : Decoded) : Nat := Text.size d.value.toList

def sourceOffset? (d : Decoded) (n : Nat) : Option Nat := d.offsets[n]?

/-- The source offset counted from the start of a window on the host text, if it is an offset at all and
not past the window's end. -/
def hostOffset? (d : Decoded) (n : Nat) (window : Span) : Option Nat := do
  let offset ← d.sourceOffset? n
  let host ← (Offset.add window.start offset).toOption
  if host ≤ window.stop then some host else none

end Decoded

namespace Escape

def decodePieces (lossy interpolations : Bool) (text : String) : Except DecodeError Decoded :=
  let ps := pieces interpolations text.toList
  match firstError? lossy 0 ps with
  | some e => .error e
  | none => .ok (Decoded.ofPieces ps)

def decode (interpolations : Bool) (text : String) : Except DecodeError Decoded :=
  if '\\' ∈ text.toList then decodePieces false interpolations text else .ok (Decoded.verbatim text)

/-- The value of some literal text with malformed escapes kept as they are. Should the pass stop all
the same, the text stands for itself. -/
def decodeLossy (interpolations : Bool) (text : String) : Decoded :=
  if '\\' ∈ text.toList then
    match decodePieces true interpolations text with
    | .ok decoded => decoded
    | .error _ => Decoded.verbatim text
  else Decoded.verbatim text

end Escape

end HclLiteral
