import HclLiteral.Text.Cursor
import HclLiteral.Token.Read

namespace HclLiteral

/-- For each open interpolation, the innermost first, the number of braces open in it. -/
abbrev Nesting := List Nat

namespace Nesting

/-- What a tag stands for at this nesting, and the nesting after it. A closing brace with no
interpolation open counts as the end of one. -/
def resolve : Nesting → Tag → Tag × Nesting
  | depths, .interpolationStart => (.interpolationStart, 0 :: depths)
  | depth :: depths, .leftBrace => (.leftBrace, (depth + 1) :: depths)
  | (depth + 1) :: depths, .rightBrace => (.rightBrace, depth :: depths)
  | 0 :: depths, .rightBrace => (.interpolationEnd, depths)
  | [], .rightBrace => (.interpolationEnd, [])
  | depths, tag => (tag, depths)

end Nesting

structure Scanner where
  pos : Nat
  rest : List UInt8
  nesting : Nesting
deriving DecidableEq, Repr

namespace Scanner

def ofBytes (bs : List UInt8) : Scanner := ⟨0, bs, []⟩

def ofCursor (c : Cursor) : Scanner := ⟨c.pos, c.rest, []⟩

def next (s : Scanner) : Token × Scanner :=
  let token := Token.read s.rest
  let (tag, nesting) := s.nesting.resolve token.tag
  (⟨tag, token.length⟩, ⟨s.pos + token.length, s.rest.drop token.length, nesting⟩)

theorem next_rest_lt {s : Scanner} (h : s.rest ≠ []) : s.next.2.rest.length < s.rest.length := by
  obtain ⟨b, bs, hr⟩ := List.exists_cons_of_ne_nil h
  have hp := Token.read_length_pos b bs
  simp only [next, hr, List.length_drop, List.length_cons]
  omega

def next? (s : Scanner) : Option Token × Scanner :=
  let (token, after) := s.next
  (if token.tag = .endOfText then none else some token, after)

def run (s : Scanner) : List Token × Scanner :=
  if s.rest = [] then ([], s)
  else
    let (tokens, last) := run s.next.2
    (s.next.1 :: tokens, last)
termination_by s.rest.length
decreasing_by exact next_rest_lt (by assumption)

end Scanner

def tokens (text : String) : List Token := (Scanner.ofBytes (Text.bytes text)).run.1

end HclLiteral
