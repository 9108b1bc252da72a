import HclLiteral.Text.Basic

/-! Quoted strings with interpolations inside. A string is read byte by byte on a stack of frames,
since its interpolations hold strings in turn. No byte inside a character is one of the five bytes
that the frames look at, so nothing is lost by reading bytes. -/

namespace HclLiteral

namespace Grammar

mutual

inductive Body : List Char → Prop
  | nil : Body []
  | char {c : Char} {cs : List Char} :
      c ≠ '{' → c ≠ '}' → c ≠ '"' → Body cs → Body (c :: cs)
  | braces {cs ds : List Char} : Body cs → Body ds → Body ('{' :: cs ++ '}' :: ds)
  | string {cs ds : List Char} : StringText cs → Body ds → Body ('"' :: cs ++ '"' :: ds)

/-- The text of a string: a backslash takes the character after it along, and an opener starts an
interpolation. -/
inductive StringText : List Char → Prop
  | nil : StringText []
  | char {c : Char} {cs : List Char} :
      c ≠ '"' → c ≠ '\\' → c ≠ '$' → StringText cs → StringText (c :: cs)
  | escape {c : Char} {cs : List Char} : StringText cs → StringText ('\\' :: c :: cs)
  | dollar {cs : List Char} : cs.head? ≠ some '{' → StringText cs → StringText ('$' :: cs)
  | interpolation {cs ds : List Char} :
      Body cs → StringText ds → StringText ('$' :: '{' :: cs ++ '}' :: ds)

end

end Grammar

namespace Quoted

/-- What is being read: the text of a string, also just after a backslash or just after a dollar
sign, or an interpolation with a number of braces open. -/
inductive Frame
  | text
  | escaped
  | dollar
  | interpolation (braces : Nat)
deriving DecidableEq, Repr

def textStep (below : List Frame) : Mark → List Frame
  | .quote => below
  | .backslash => .escaped :: below
  | .dollar => .dollar :: below
  | .leftBrace | .rightBrace | .plain => .text :: below

def step (below : List Frame) : Frame → Mark → List Frame
  | .text, m => textStep below m
  | .escaped, _ => .text :: below
  | .dollar, .leftBrace => .interpolation 0 :: .text :: below
  | .dollar, m => textStep below m
  | .interpolation n, .quote => .text :: .interpolation n :: below
  | .interpolation n, .leftBrace => .interpolation (n + 1) :: below
  | .interpolation 0, .rightBrace => below
  | .interpolation (n + 1), .rightBrace => .interpolation n :: below
  | .interpolation n, .dollar | .interpolation n, .backslash | .interpolation n, .plain =>
    .interpolation n :: below

def run : List Frame → List UInt8 → Option Nat
  | [], _ => some 0
  | _ :: _, [] => none
  | frame :: below, b :: bs => (run (step below frame (Mark.ofByte b)) bs).map (· + 1)

def length? (bs : List UInt8) : Option Nat := run [.text] bs

@[simp] theorem run_nil (bs : List UInt8) : run [] bs = some 0 := by cases bs <;> rfl

theorem run_le {frames : List Frame} {bs : List UInt8} {n : Nat} (h : run frames bs = some n) :
    n ≤ bs.length := by
  fun_induction run frames bs generalizing n with
  | case1 => cases h; exact Nat.zero_le _
  | case2 => cases h
  | case3 frame below b bs ih =>
    obtain ⟨m, hm, rfl⟩ := Option.map_eq_some_iff.mp h
    exact Nat.succ_le_succ (ih hm)

end Quoted

end HclLiteral
