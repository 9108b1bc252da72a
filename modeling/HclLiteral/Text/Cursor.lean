import HclLiteral.Offset
import HclLiteral.Text.Basic
import HclLiteral.Text.Utf8

/-! A cursor on the bytes of a text. It may stand past the end, where it reads zero bytes. A move
that would take it beyond the largest offset fails. -/

namespace HclLiteral

structure Cursor where
  source : List UInt8
  pos : Nat
deriving DecidableEq, Repr

namespace Cursor

def atOffset (text : String) (pos : Nat) : Cursor :=
  let source := Text.bytes text
  ⟨source, min pos source.length⟩

def ofText (text : String) : Cursor := ⟨Text.bytes text, 0⟩

def rest (c : Cursor) : List UInt8 := c.source.drop c.pos

def current (c : Cursor) : UInt8 := c.rest.headD 0

def peek (c : Cursor) : UInt8 := c.rest.tail.headD 0

def isAtEnd (c : Cursor) : Bool := c.source.length ≤ c.pos

def advance (c : Cursor) (n : Nat) : Except Overflow Cursor := do
  let pos ← Offset.add c.pos n
  return { c with pos }

/-- A move over the current character. In the text it stops at the end of the text at the latest;
past the end it moves by one byte. -/
def advanceChar (c : Cursor) : Except Overflow Cursor := do
  let next ← c.advance (Text.charWidth c.current)
  return { next with pos := min next.pos (max c.source.length (c.pos + 1)) }

def skipWhile (c : Cursor) (p : UInt8 → Bool) : Cursor :=
  { c with pos := c.pos + (c.rest.takeWhile p).length }

def skipBlanks (c : Cursor) : Cursor := c.skipWhile Byte.isBlank

def isStringDelimiter (b : UInt8) : Bool :=
  match Mark.ofByte b with
  | .quote | .backslash | .dollar => true
  | .leftBrace | .rightBrace | .plain => false

/-- A move to the next string delimiter, or to the end of the text if none follows. A cursor past
the end comes back to it. -/
def seekStringDelimiter (c : Cursor) : Cursor :=
  skipWhile { c with pos := min c.pos c.source.length } fun b => !isStringDelimiter b

end Cursor

end HclLiteral
