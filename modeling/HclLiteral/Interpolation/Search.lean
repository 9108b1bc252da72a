import HclLiteral.Interpolation.Spans
import HclLiteral.Token.Reader
import HclLiteral.Trap

namespace HclLiteral

/-- A copy of some bytes with zero bytes behind it, one at least, up to a multiple of 64. Bytes without an offset
would be left out. -/
def Text.buffer (bs : List UInt8) : Except Trap (List UInt8) := do
  let room ← Offset.addPositions (← Offset.addPositions bs.length 1) 63
  let size := room / 64 * 64
  if Offset.max < bs.length then throw .standIn
  else if size < bs.length then throw .slice
  else return bs ++ List.replicate (size - bs.length) 0

def Cursor.onBuffer (buffer : List UInt8) (length pos : Nat) : Except Trap Cursor := do
  let source ← Trap.slice.require (Text.firstBytes? buffer length)
  if (← Trap.index.require buffer[length]?) = 0 then Cursor.advance ⟨source, 0⟩ (min pos length)
  else throw .standIn

namespace Interpolation

/-- The position of the leftmost opener from a position on. Past the end of the text, no opener would be found. -/
def openerFrom (bs : List UInt8) (pos : Nat) : Except Trap (Option Nat) := do
  match opener? (← Trap.standIn.require (Text.bytesFrom? bs pos)) with
  | none => return none
  | some gap => return some (← Offset.addPositions pos gap)

def firstTurn (bs : List UInt8) (pos : Nat) : Except Trap (Option Nat ⊕ Nat) := do
  match ← openerFrom bs pos with
  | none => return .inl none
  | some first =>
    if first = 0 then return .inl (some (Offset.ofPosition first))
    else if (← Trap.index.require bs[← Offset.sub first 1]?) = 0x24 then
      return .inr (← Offset.addPositions first 1)
    else return .inl (some (Offset.ofPosition first))

def firstOpener (bs : List UInt8) : Except Trap (Option Nat) :=
  Trap.loop (fun pos => bs.length - pos) (firstTurn bs) 0

structure Probe where
  reader : Reader
  level : Nat
  start : Nat
deriving DecidableEq, Repr

def Probe.turn (length : Nat) (p : Probe) : Except Trap (Attempt ⊕ Probe) := do
  let pos := p.reader.cursor.pos
  let (token, reader) ← p.reader.next
  let stop ← Offset.add pos token.length
  match token.tag.boundary with
  | .opening => return .inr ⟨reader, ← Offset.add p.level 1, if p.level = 0 then pos else p.start⟩
  | .closing =>
    if p.level = 0 then return .inl (.resync pos)
    else
      let level ← Offset.sub p.level 1
      if level = 0 then return .inl (.closed ⟨p.start, stop⟩) else return .inr ⟨reader, level, p.start⟩
  | .endOfText =>
    if 0 < p.level then return .inl (.unterminated ⟨p.start, min stop length⟩) else return .inl .exhausted
  | .other => if p.level = 0 then return .inl (.resync pos) else return .inr ⟨reader, p.level, p.start⟩

def Probe.toEnd (length : Nat) : Probe → Except Trap Attempt :=
  Trap.loop (fun p => length - p.reader.cursor.pos) (turn length)

def attemptAt (buffer : List UInt8) (length pos : Nat) : Except Trap Attempt := do
  Probe.toEnd length ⟨.ofCursor (← Cursor.onBuffer buffer length pos), 0, pos⟩

structure Search where
  pos : Nat
  gaps : Nat
  spans : List Span
deriving DecidableEq, Repr

namespace Search

def moveOn (gapLimit : Option Nat) (bs : List UInt8) (s : Search) (resume : Nat) :
    Except Trap (List Span ⊕ Search) := do
  match ← openerFrom bs resume with
  | none => return .inl s.spans
  | some next =>
    let pos := Offset.ofPosition next
    if resume < pos then
      let gaps ← Offset.add s.gaps 1
      if gapLimit.any (· < gaps) then return .inl s.spans else return .inr { s with pos, gaps }
    else return .inr { s with pos }

def turn (gapLimit : Option Nat) (bs buffer : List UInt8) (s : Search) : Except Trap (List Span ⊕ Search) := do
  if s.pos < bs.length then
    match ← attemptAt buffer bs.length s.pos with
    | .closed span => moveOn gapLimit bs { s with spans := s.spans ++ [span] } span.stop
    | .unterminated span => return .inl (s.spans ++ [span])
    | .exhausted => return .inl s.spans
    | .resync offset => moveOn gapLimit bs s (← Offset.add offset 1)
  else return .inl s.spans

def toEnd (gapLimit : Option Nat) (bs buffer : List UInt8) : Search → Except Trap (List Span) :=
  Trap.loop (fun s => bs.length - s.pos) (turn gapLimit bs buffer)

end Search

def search (gapLimit : Option Nat) (bs : List UInt8) : Except Trap (List Span) := do
  match ← firstOpener bs with
  | none => return []
  | some first => Search.toEnd gapLimit bs (← Text.buffer bs) ⟨first, 0, []⟩

end Interpolation

end HclLiteral
