import HclLiteral.Text.Basic

namespace HclLiteral.Escape

/-- Why an escape has no meaning. The letter is the character after the backslash. -/
inductive Fault
  | trailingBackslash
  | unknownLetter (letter : Char)
  | tooFewDigits (letter : Char) (expected : Nat)
  | notDigit (letter digit : Char)
  | signedDigits (letter : Char)
  | lineBreak (code : Char)
  | noCharacter (code : Nat)
deriving DecidableEq, Repr

structure Reading where
  meaning : Char
  length : Nat
deriving DecidableEq, Repr

def simple? : Char → Option Char
  | 'a' => some '\x07'
  | 'b' => some '\x08'
  | 'f' => some '\x0C'
  | 'n' => some '\n'
  | 't' => some '\t'
  | 'r' => some '\r'
  | 'v' => some '\x0B'
  | '\\' => some '\\'
  | '"' => some '"'
  | _ => none

def hexWidth? : Char → Option Nat
  | 'x' => some 2
  | 'u' => some 4
  | 'U' => some 8
  | _ => none

/-- The octal digits in front: at most three if the first is at most 3, at most two otherwise, so
that their value fits in a byte. -/
def octalDigits (cs : List Char) : List Char :=
  (cs.take (if cs.headD '0' ≤ '3' then 3 else 2)).takeWhile Numeral.isOctalDigit

def digitFault? (letter : Char) (width : Nat) (cs : List Char) : Option Fault :=
  match (cs.take width).find? (!Numeral.isHexDigit ·) with
  | some digit => some (.notDigit letter digit)
  | none => if cs.length < width then some (.tooFewDigits letter width) else none

def ofCodePoint (code : Nat) : Except Fault Char :=
  if code = 0x0A ∨ code = 0x0D then .error (.lineBreak (Char.ofNat code))
  else if code.isValidChar then .ok (Char.ofNat code)
  else .error (.noCharacter code)

def isSign (c : Char) : Bool := c == '+' || c == '-'

def readHex (letter : Char) (width : Nat) (cs : List Char) : Except Fault Reading :=
  if (cs.take 1).any isSign then .error (.signedDigits letter)
  else
    match digitFault? letter width cs with
    | some fault => .error fault
    | none => (ofCodePoint (Numeral.value 16 (cs.take width))).map fun meaning => ⟨meaning, 1 + width⟩

def read : List Char → Except Fault Reading
  | [] => .error .trailingBackslash
  | letter :: cs =>
    match simple? letter with
    | some meaning => .ok ⟨meaning, 1⟩
    | none =>
      if Numeral.isOctalDigit letter then
        let digits := octalDigits (letter :: cs)
        .ok ⟨Char.ofNat (Numeral.value 8 digits), digits.length⟩
      else
        match hexWidth? letter with
        | some width => readHex letter width cs
        | none => .error (.unknownLetter letter)

end HclLiteral.Escape
