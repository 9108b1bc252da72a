/-! Classes of bytes and of characters. Those of bytes are ASCII, so that no byte inside a longer character is
in one. -/

namespace HclLiteral

namespace Byte

def isBlank (b : UInt8) : Bool := b == 0x20 || b == 0x09 || b == 0x0D || b == 0x0A

def isDigit (b : UInt8) : Bool := 0x30 ≤ b && b ≤ 0x39

def isHexDigit (b : UInt8) : Bool :=
  isDigit b || (0x41 ≤ b && b ≤ 0x46) || (0x61 ≤ b && b ≤ 0x66)

def isNameStart (b : UInt8) : Bool :=
  (0x61 ≤ b && b ≤ 0x7A) || (0x41 ≤ b && b ≤ 0x5A) || b == 0x5F

def isNameContinue (b : UInt8) : Bool := isNameStart b || isDigit b || b == 0x2D

end Byte

inductive Mark
  | dollar
  | leftBrace
  | rightBrace
  | quote
  | backslash
  | plain
deriving DecidableEq, Repr

def Mark.ofByte (b : UInt8) : Mark :=
  if b = 0x24 then .dollar
  else if b = 0x7B then .leftBrace
  else if b = 0x7D then .rightBrace
  else if b = 0x22 then .quote
  else if b = 0x5C then .backslash
  else .plain

namespace Numeral

def isOctalDigit (c : Char) : Bool := '0' ≤ c && c ≤ '7'

def isHexDigit (c : Char) : Bool :=
  c.isDigit || ('a' ≤ c && c ≤ 'f') || ('A' ≤ c && c ≤ 'F')

def digitValue (c : Char) : Nat :=
  if c.isDigit then c.toNat - 48 else if c.toNat < 97 then c.toNat - 55 else c.toNat - 87

def value (base : Nat) (digits : List Char) : Nat :=
  digits.foldl (fun n c => n * base + digitValue c) 0

def upperHex (n : Nat) : String :=
  "0x" ++ String.ofList ((Nat.toDigits 16 n).map Char.toUpper)

end Numeral

namespace Braces

def opens : List Char → Bool
  | c :: d :: _ => c = '$' && d = '{'
  | _ => false

/-- The number of characters up to and including the brace that closes the outermost of the braces
open, or to the end of the text if there is none. -/
def closeLength : Nat → List Char → Nat
  | 0, _ => 0
  | _ + 1, [] => 0
  | n + 1, c :: cs =>
    1 + closeLength (if c = '{' then n + 2 else if c = '}' then n else n + 1) cs

def region (cs : List Char) : List Char := cs.take (2 + closeLength 1 (cs.drop 2))

end Braces

end HclLiteral
