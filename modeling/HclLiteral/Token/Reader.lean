import HclLiteral.Text.Cursor
import HclLiteral.Token.Scanner
import HclLiteral.Trap

/-! Tokens read by moving a cursor. Offsets, token lengths and counts of braces are 32-bit numbers, and the
zero byte behind the text is the last one that may be read: else the token ends with a trap. -/

namespace HclLiteral

namespace Cursor

open Byte

def byteAt (c : Cursor) (pos : Nat) : Except Trap UInt8 := Trap.standIn.require (c.source ++ [0])[pos]?

def look (c : Cursor) : Except Trap UInt8 := c.byteAt c.pos

def lookAhead (c : Cursor) : Except Trap UInt8 := c.byteAt (c.pos + 1)

/-- A zero byte in the text is not its end. -/
def looksAtEnd (c : Cursor) : Except Trap Bool := do return (← c.look) == 0 && c.isAtEnd

def eatChar (c : Cursor) : Except Trap Cursor := do
  let _ ← c.look
  c.advanceChar

def whileTurn (p : UInt8 → Bool) (c : Cursor) : Except Trap (Cursor ⊕ Cursor) := do
  if p (← c.look) then return .inr (← c.advance 1) else return .inl c

def eatWhile (p : UInt8 → Bool) : Cursor → Except Trap Cursor :=
  Trap.loop (fun c => Offset.max - c.pos) (whileTurn p)

def eatFraction (c : Cursor) : Except Trap Cursor := do
  if (← c.look) = 0x2E then
    if isDigit (← c.lookAhead) then (← c.advance 1).eatWhile isDigit else return c
  else return c

def eatSign (c : Cursor) : Except Trap Cursor := do
  let b ← c.look
  if b = 0x2B ∨ b = 0x2D then c.advance 1 else return c

/-- A move over an exponent. A second cursor looks for its digits, and is dropped if there are none. -/
def eatExponent (c : Cursor) : Except Trap Cursor := do
  let b ← c.look
  if b = 0x65 ∨ b = 0x45 then
    let probe ← (← c.advance 1).eatSign
    if isDigit (← probe.look) then probe.eatWhile isDigit else return c
  else return c

def looksHexadecimal (first : UInt8) (c : Cursor) : Except Trap Bool := do
  if first = 0x30 then
    let b ← c.look
    if b = 0x78 ∨ b = 0x58 then return isHexDigit (← c.lookAhead) else return false
  else return false

def eatNumber (c : Cursor) : Except Trap Cursor := do
  let first ← c.look
  let next ← c.advance 1
  if ← next.looksHexadecimal first then (← next.advance 1).eatWhile isHexDigit
  else (← (← next.eatWhile isDigit).eatFraction).eatExponent

def seek (c : Cursor) : Except Trap Cursor := do
  let start := min c.pos c.source.length
  let remaining ← Trap.slice.require (Text.bytesFrom? c.source start)
  advance { c with pos := start } (remaining.takeWhile fun b => !isStringDelimiter b).length

inductive Layer
  | text
  | interpolation (braces : Nat)
deriving DecidableEq, Repr

/-- A string that has come to its end, closed or not, or the layers that it goes on with. -/
abbrev StringTurn := (Tag × Cursor) ⊕ (List Layer × Cursor)

def delimiterTurn (below : List Layer) (c : Cursor) : Except Trap StringTurn := do
  match Mark.ofByte (← c.look) with
  | .quote => return .inr (below, ← c.advance 1)
  | .backslash =>
    let c ← c.advance 1
    if ← c.looksAtEnd then return .inr (.text :: below, c)
    else return .inr (.text :: below, ← c.eatChar)
  | .dollar =>
    let c ← c.advance 1
    if Mark.ofByte (← c.look) = .leftBrace then
      return .inr (.interpolation 0 :: .text :: below, ← c.advance 1)
    else return .inr (.text :: below, c)
  | .leftBrace | .rightBrace | .plain => return .inl (.openString, c)

def interpolationTurn (braces : Nat) (below : List Layer) (c : Cursor) : Except Trap StringTurn := do
  match Mark.ofByte (← c.look) with
  | .quote => return .inr (.text :: .interpolation braces :: below, ← c.advance 1)
  | .leftBrace => return .inr (.interpolation (← Offset.add braces 1) :: below, ← c.advance 1)
  | .rightBrace =>
    let c ← c.advance 1
    if braces = 0 then return .inr (below, c)
    else return .inr (.interpolation (← Offset.sub braces 1) :: below, c)
  | .dollar | .backslash | .plain =>
    if ← c.looksAtEnd then return .inl (.openString, c)
    else return .inr (.interpolation braces :: below, ← c.eatChar)

def turn (c : Cursor) : List Layer → Except Trap StringTurn
  | [] => return .inl (.string, c)
  | .text :: below => do delimiterTurn below (← c.seek)
  | .interpolation braces :: below => interpolationTurn braces below c

def eatString (layers : List Layer) (c : Cursor) : Except Trap (Tag × Cursor) :=
  Trap.loop (fun s => Offset.max - s.2.pos) (fun s => s.2.turn s.1) (layers, c)

def singles : List (UInt8 × Tag) :=
  [(0x7B, .leftBrace), (0x7D, .rightBrace), (0x2B, .plus), (0x2D, .minus), (0x2A, .times),
   (0x2F, .divide), (0x25, .modulo), (0x3F, .question), (0x3A, .colon), (0x2E, .dot), (0x2C, .comma),
   (0x28, .leftParen), (0x29, .rightParen), (0x5B, .leftBracket), (0x5D, .rightBracket)]

def pairs : List (UInt8 × UInt8 × Tag × Tag) :=
  [(0x24, 0x7B, .dollar, .interpolationStart), (0x21, 0x3D, .logicalNot, .notEqual),
   (0x3C, 0x3D, .less, .lessEqual), (0x3E, 0x3D, .greater, .greaterEqual),
   (0x3D, 0x3D, .invalid, .equal), (0x26, 0x26, .invalid, .logicalAnd),
   (0x7C, 0x7C, .invalid, .logicalOr)]

def eatSymbol (first : UInt8) (c : Cursor) : Except Trap (Tag × Cursor) :=
  match singles.lookup first, pairs.lookup first with
  | some tag, _ => do return (tag, ← c.advance 1)
  | none, some (second, one, two) => do
    let next ← c.advance 1
    if (← next.look) = second then return (two, ← next.advance 1) else return (one, next)
  | none, none => do return (.invalid, ← c.eatChar)

/-- A move over one token. A closing brace is a `rightBrace` here. -/
def eatToken (c : Cursor) : Except Trap (Tag × Cursor) := do
  let b ← c.look
  if b = 0 then
    if ← c.looksAtEnd then return (.endOfText, c) else return (.nul, ← c.advance 1)
  else if isBlank b then return (.blank, ← c.eatWhile isBlank)
  else if isNameStart b then return (.name, ← (← c.advance 1).eatWhile isNameContinue)
  else if isDigit b then return (.number, ← c.eatNumber)
  else if b = 0x22 then (← c.advance 1).eatString [.text]
  else c.eatSymbol b

end Cursor

def Nesting.enter : Nesting → Tag → Except Overflow (Tag × Nesting)
  | depths, .interpolationStart => .ok (.interpolationStart, 0 :: depths)
  | depth :: depths, .leftBrace => do return (.leftBrace, (← Offset.add depth 1) :: depths)
  | depth :: depths, .rightBrace =>
    if 0 < depth then do return (.rightBrace, (← Offset.sub depth 1) :: depths)
    else .ok (.interpolationEnd, depths)
  | [], .rightBrace => .ok (.interpolationEnd, [])
  | depths, tag => .ok (tag, depths)

structure Reader where
  cursor : Cursor
  nesting : Nesting
deriving DecidableEq, Repr

namespace Reader

def ofCursor (c : Cursor) : Reader := ⟨c, []⟩

def next (r : Reader) : Except Trap (Token × Reader) := do
  let (tag, cursor) ← r.cursor.eatToken
  let (tag, nesting) ← r.nesting.enter tag
  let length ← Offset.sub cursor.pos r.cursor.pos
  return (⟨tag, length⟩, ⟨cursor, nesting⟩)

def scanner (r : Reader) : Scanner := ⟨r.cursor.pos, r.cursor.rest, r.nesting⟩

end Reader

end HclLiteral
