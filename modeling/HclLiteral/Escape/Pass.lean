import HclLiteral.Escape.Decode
import HclLiteral.Text.Basic
import HclLiteral.Trap

/-! Decoding by position, one character at a time. An interpolation is passed through by counting its braces,
and an escape is read off the bytes behind its backslash. -/

namespace HclLiteral

namespace Numeral

/-- A number with one digit more, in a word of `size` values: what is shifted out is lost. -/
def shiftIn (bits size n digit : Nat) : Nat := (n <<< bits) % size ||| digit

end Numeral

def Byte.isOctalDigit (b : UInt8) : Bool := 0x30 ≤ b && b ≤ 0x37

def Braces.recount (isLeft isRight : Bool) (n : Nat) : Except Overflow Nat :=
  if isLeft then Offset.add n 1 else if isRight then Offset.sub n 1 else .ok n

namespace Escape

abbrev Parsed := Except DecodeError (Char × Nat)

def pushOctal (n : Nat) (b : UInt8) : Except Overflow Nat := do
  return Numeral.shiftIn 3 256 n (← Offset.sub b.toNat 0x30)

def octalAt (digits : List UInt8) (pos : Nat) : Except Trap (Char × Nat) := do
  let first ← Trap.index.require digits[0]?
  let count := ((digits.take (if first ≤ 0x33 then 3 else 2)).takeWhile Byte.isOctalDigit).length
  let taken ← Trap.slice.require (Text.firstBytes? digits count)
  let value ← (taken.foldlM pushOctal 0 : Except Overflow Nat)
  return (Char.ofNat value, ← Offset.addPositions (← Offset.addPositions pos 1) count)

/-- The value of the hexadecimal digits from the `i`-th on, `left` of them, behind those of `code`. A byte that
is no digit is reported as the character there. -/
def hexCode (letter : Char) (width : Nat) (rest : List Char) (digits : List UInt8) :
    Nat → Nat → Nat → Except Trap (Except Fault Nat)
  | 0, _, code => return .ok code
  | left + 1, i, code =>
    match digits[i]? with
    | none => return .error (.tooFewDigits letter width)
    | some b =>
      if Numeral.isHexDigit (Char.ofNat b.toNat) then
        hexCode letter width rest digits left (i + 1)
          (Numeral.shiftIn 4 (Offset.maxPosition + 1) code (Numeral.digitValue (Char.ofNat b.toNat)))
      else do
        let tail ← Trap.slice.require (Text.charsFrom? rest (← Offset.addPositions 1 i))
        let digit ← Trap.standIn.require tail.head?
        return .error (.notDigit letter digit)

def hexAt (rest : List Char) (pos : Nat) (letter : Char) (width : Nat) : Except Trap Parsed := do
  let digits ← Trap.slice.require (Text.bytesFrom? (Text.encode rest) 1)
  if digits.head? = some 0x2B ∨ digits.head? = some 0x2D then
    return .error ⟨Offset.ofPosition pos, .signedDigits letter⟩
  else
    match (← hexCode letter width rest digits width 0 0) >>= ofCodePoint with
    | .error fault => return .error ⟨Offset.ofPosition pos, fault⟩
    | .ok meaning => return .ok (meaning, ← Offset.addPositions (← Offset.addPositions pos 2) width)

def escapeAt (text : List Char) (pos : Nat) : Except Trap Parsed := do
  match ← Trap.standIn.require (Text.charsFrom? text (← Offset.addPositions pos 1)) with
  | [] => return .error ⟨Offset.ofPosition pos, .trailingBackslash⟩
  | letter :: cs =>
    match simple? letter with
    | some meaning => return .ok (meaning, ← Offset.addPositions pos 2)
    | none =>
      if Numeral.isOctalDigit letter then return .ok (← octalAt (Text.encode (letter :: cs)) pos)
      else
        match hexWidth? letter with
        | some width => hexAt (letter :: cs) pos letter width
        | none => return .error ⟨Offset.ofPosition pos, .unknownLetter letter⟩

/-- How far a pass over a text has come, with the braces open in an interpolation that it is in, and what it
has written. -/
structure Pass where
  pos : Nat
  braces : Nat
  value : List Char
  offsets : List Nat
deriving DecidableEq, Repr

namespace Pass

def charAt? (text : List Char) (pos : Nat) : Option Char := (Text.charsFrom? text pos).bind List.head?

def copy (p : Pass) (c : Char) (pos : Nat) : Except Trap Pass := do
  let offsets ← (List.range c.utf8Size).mapM fun i => Offset.add (Offset.ofPosition pos) i
  return { p with value := p.value ++ [c], offsets := p.offsets ++ offsets }

/-- A character written for an escape, all of its bytes with the offset of the backslash. -/
def write (p : Pass) (c : Char) (pos : Nat) : Pass :=
  { p with
    value := p.value ++ [c]
    offsets := p.offsets ++ List.replicate c.utf8Size (Offset.ofPosition pos) }

def skip (p : Pass) (c : Char) : Except Trap Pass := do
  return { ← p.copy c p.pos with pos := ← Offset.addPositions p.pos c.utf8Size }

/-- A move over a malformed escape, which is written as it stands: a backslash and the character after it. -/
def keep (text : List Char) (p : Pass) : Except Trap Pass := do
  let q ← p.skip '\\'
  match charAt? text q.pos with
  | some c => q.skip c
  | none => return q

def turn (lossy interpolations : Bool) (text : List Char) (p : Pass) :
    Except Trap (Except DecodeError Pass ⊕ Pass) := do
  match charAt? text p.pos with
  | none => return .inl (.ok p)
  | some c =>
    if 0 < p.braces then
      let braces ← Braces.recount (c = '{') (c = '}') p.braces
      return .inr { ← p.skip c with braces }
    else if interpolations && c = '$' && (Text.encode text)[← Offset.addPositions p.pos 1]? == some 0x7B then
      return .inr { ← (← p.skip '$').skip '{' with braces := 1 }
    else if c = '\\' then
      match ← escapeAt text p.pos with
      | .ok (meaning, next) => return .inr { p.write meaning p.pos with pos := next }
      | .error e => if lossy then return .inr (← p.keep text) else return .inl (.error e)
    else return .inr (← p.skip c)

def start : Pass := ⟨0, 0, [], []⟩

def toEnd (lossy interpolations : Bool) (text : List Char) : Pass → Except Trap (Except DecodeError Pass) :=
  Trap.loop (fun p => Text.size text - p.pos) (turn lossy interpolations text)

def decoded (text : List Char) (p : Pass) : Decoded :=
  ⟨String.ofList p.value, p.offsets ++ [Offset.ofPosition (Text.size text)]⟩

def run (lossy interpolations : Bool) (text : List Char) : Except Trap (Except DecodeError Decoded) := do
  return (← start.toEnd lossy interpolations text).map (decoded text)

def verbatim (text : String) : Decoded :=
  ⟨text, List.range (Offset.ofPosition (Text.size text.toList) + 1)⟩

def decode (interpolations : Bool) (text : String) : Except Trap (Except DecodeError Decoded) :=
  if '\\' ∈ text.toList then run false interpolations text.toList else return .ok (verbatim text)

def decodeLossy (interpolations : Bool) (text : String) : Except Trap Decoded := do
  if '\\' ∈ text.toList then
    match ← run true interpolations text.toList with
    | .ok decoded => return decoded
    | .error _ => throw .standIn
  else return verbatim text

end Pass

end Escape

end HclLiteral
