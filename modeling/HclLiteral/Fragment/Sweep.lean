import HclLiteral.Escape.Pass
import HclLiteral.Fragment

namespace HclLiteral

namespace Braces

def closeTurn (bs : List UInt8) (s : Nat × Nat) : Except Trap (Nat ⊕ (Nat × Nat)) := do
  if s.1 < bs.length ∧ 0 < s.2 then
    let b ← Trap.index.require bs[s.1]?
    let braces ← recount (b = 0x7B) (b = 0x7D) s.2
    return .inr (← Offset.addPositions s.1 1, braces)
  else return .inl s.1

def closeFrom (bs : List UInt8) (pos braces : Nat) : Except Trap Nat :=
  Trap.loop (fun s => bs.length - s.1) (closeTurn bs) (pos, braces)

end Braces

namespace Fragment

def spanOf (start stop : Nat) : Span := ⟨Offset.ofPosition start, Offset.ofPosition stop⟩

/-- The fragment that shows its text as it is. Text that is not there would be shown as nothing. -/
def raw (text : List Char) (start stop : Nat) : Except Trap Fragment := do
  let source ← Trap.standIn.require (Text.slice? text start stop)
  return ⟨spanOf start stop, String.ofList source⟩

def startsIsland (interpolations : Bool) (bs : List UInt8) (pos : Nat) (b : UInt8) : Except Trap Bool := do
  if interpolations && b == 0x24 && bs[← Offset.addPositions pos 1]? == some 0x7B then
    if pos = 0 then return true
    else return (← Trap.index.require bs[← Offset.sub pos 1]?) != 0x24
  else return false

def digitsEnd (isDigit : UInt8 → Bool) (pos most : Nat) (rest : List UInt8) : Except Overflow Nat :=
  Offset.addPositions pos ((rest.take most).takeWhile isDigit).length

def hexEnd (bs : List UInt8) (pos most : Nat) : Except Trap Nat := do
  digitsEnd (fun b => Numeral.isHexDigit (Char.ofNat b.toNat)) pos most
    (← Trap.standIn.require (Text.bytesFrom? bs pos))

def escapeEnd (bs : List UInt8) (pos : Nat) (next : Char) : Except Trap Nat := do
  if next = 'u' then hexEnd bs (← Offset.addPositions pos 2) 4
  else if next = 'U' then hexEnd bs (← Offset.addPositions pos 2) 8
  else if next = 'X' then hexEnd bs (← Offset.addPositions pos 2) 2
  else if Numeral.isOctalDigit next then
    let pos ← Offset.addPositions pos 1
    digitsEnd Byte.isOctalDigit pos 3 (← Trap.slice.require (Text.bytesFrom? bs pos))
  else Offset.addPositions (← Offset.addPositions pos 1) next.utf8Size

def escapeFrom (text : List Char) (pos : Nat) : Except Trap (Option Fragment) := do
  match (← Trap.standIn.require (Text.charsFrom? text (← Offset.addPositions pos 1))).head? with
  | none => return none
  | some next =>
    match letter? next with
    | some meaning => return some ⟨spanOf pos (← Offset.addPositions pos 2), String.ofList [meaning]⟩
    | none => return some (← raw text pos (← escapeEnd (Text.encode text) pos next))

/-- How far a sweep has come, where the plain text before that starts, and the fragments in front of it. -/
structure Sweep where
  pos : Nat
  plain : Nat
  fragments : List Fragment
deriving DecidableEq, Repr

namespace Sweep

def takePlain (text : List Char) (s : Sweep) : Except Trap (List Fragment) := do
  if s.plain = s.pos then return s.fragments else return s.fragments ++ [← raw text s.plain s.pos]

def turn (interpolations : Bool) (text : List Char) (s : Sweep) : Except Trap (Sweep ⊕ Sweep) := do
  let bs := Text.encode text
  if s.pos < bs.length then
    let b ← Trap.index.require bs[s.pos]?
    if ← startsIsland interpolations bs s.pos b then
      let fragments ← s.takePlain text
      let stop ← Braces.closeFrom bs (← Offset.addPositions s.pos 2) 1
      return .inr ⟨stop, stop, fragments ++ [← raw text s.pos stop]⟩
    else if b = 0x5C then
      let fragments ← s.takePlain text
      match ← escapeFrom text s.pos with
      | none =>
        return .inl ⟨s.pos, bs.length, fragments ++ [⟨spanOf s.pos (← Offset.addPositions s.pos 1), "\\"⟩]⟩
      | some f => return .inr ⟨f.span.stop, f.span.stop, fragments ++ [f]⟩
    else return .inr { s with pos := ← Offset.addPositions s.pos 1 }
  else return .inl s

def toEnd (interpolations : Bool) (text : List Char) : Sweep → Except Trap Sweep :=
  Trap.loop (fun s => Text.size text - s.pos) (turn interpolations text)

end Sweep

def contentStop (quoted : Bool) (text : List Char) : Except Trap Nat :=
  match text.getLast? with
  | some last =>
    if quoted && text.head? == some last then Offset.sub (Text.size text) last.utf8Size
    else return Text.size text
  | none => return Text.size text

def Sweep.finish (quoted : Bool) (text : List Char) (s : Sweep) : Except Trap (List Fragment) := do
  let stop ← contentStop quoted text
  if s.plain < stop then return s.fragments ++ [← raw text s.plain stop] else return s.fragments

def sweep (interpolations quoted : Bool) (text : String) : Except Trap (List Fragment) :=
  match text.toList with
  | [] => return []
  | first :: cs => do
    let pos := if quoted then first.utf8Size else 0
    (← Sweep.toEnd interpolations (first :: cs) ⟨pos, pos, []⟩).finish quoted (first :: cs)

end Fragment

end HclLiteral
