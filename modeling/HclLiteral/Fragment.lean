import HclLiteral.Escape.Basic
import HclLiteral.Span
import HclLiteral.Text.Basic

/-! Fragments of a literal: runs of plain text, single escapes, and interpolation islands, in order and
without gaps. The literal may come with its quotes, which belong to no fragment. -/

namespace HclLiteral

/-- A fragment's place, and its text as it is shown: an escape of one letter as its meaning. -/
structure Fragment where
  span : Span
  text : String
deriving DecidableEq, Repr

namespace Fragment

def opensInterpolation (f : Fragment) : Bool := Braces.opens f.text.toList

inductive Segment
  | plain (source : List Char)
  | escape (source shown : List Char)
  | island (source : List Char)
deriving DecidableEq, Repr

namespace Segment

def source : Segment → List Char
  | plain source | escape source _ | island source => source

def shown : Segment → List Char
  | plain source | island source => source
  | escape _ shown => shown

def consPlain (c : Char) : List Segment → List Segment
  | .plain run :: rest => .plain (c :: run) :: rest
  | rest => .plain [c] :: rest

end Segment

def letter? (c : Char) : Option Char := if c = '/' then some '/' else Escape.simple? c

/-- The number of characters of an escape after its backslash. Digits are taken as far as they go, up
to the most that the escape may have. -/
def escapeLength : List Char → Nat
  | [] => 0
  | c :: cs =>
    if Numeral.isOctalDigit c then (((c :: cs).take 3).takeWhile Numeral.isOctalDigit).length
    else if c = 'u' then 1 + hexRun 4 cs
    else if c = 'U' then 1 + hexRun 8 cs
    else if c = 'X' then 1 + hexRun 2 cs
    else 1
where
  hexRun (most : Nat) (cs : List Char) : Nat :=
    ((cs.take most).takeWhile Numeral.isHexDigit).length

def escape (cs : List Char) : Segment :=
  let source := '\\' :: cs.take (escapeLength cs)
  match cs.head?.bind letter? with
  | some meaning => .escape source [meaning]
  | none => .escape source source

/-- The island or escape in front, if there is one. An opener right after a dollar sign starts no
island. -/
def special? (interpolations : Bool) (before : Option Char) (c : Char) (cs : List Char) :
    Option Segment :=
  if interpolations && Braces.opens (c :: cs) && before != some '$' then
    some (.island (Braces.region (c :: cs)))
  else if c = '\\' then some (escape cs)
  else none

theorem special?_source_pos {interpolations : Bool} {before : Option Char} {c : Char}
    {cs : List Char} {s : Segment} (h : special? interpolations before c cs = some s) :
    0 < s.source.length := by
  unfold special? at h
  split at h
  · cases h
    rw [Segment.source, Braces.region, Nat.add_comm]
    exact Nat.succ_pos _
  · split at h
    · cases h
      unfold escape
      split <;> exact Nat.succ_pos _
    · cases h

def segments (interpolations : Bool) (before : Option Char) : List Char → List Segment
  | [] => []
  | c :: cs =>
    match _h : special? interpolations before c cs with
    | some s =>
      s :: segments interpolations s.source.getLast? ((c :: cs).drop s.source.length)
    | none => Segment.consPlain c (segments interpolations (some c) cs)
termination_by cs => cs.length
decreasing_by
  · have := special?_source_pos _h
    simp only [List.length_drop, List.length_cons]
    omega
  · exact Nat.lt_succ_self _

/-- Segments without the closing quote, which is looked for only at the end of plain text. -/
def dropQuote (quote : Char) : List Segment → List Segment
  | [] => []
  | [.plain run] =>
    if run.getLast? = some quote then
      if run.dropLast = [] then [] else [.plain run.dropLast]
    else [.plain run]
  | s :: rest => s :: dropQuote quote rest

def place (start : Nat) : List Segment → List Fragment
  | [] => []
  | s :: rest =>
    let stop := start + Text.size s.source
    ⟨⟨start, stop⟩, String.ofList s.shown⟩ :: place stop rest

def ofBare (interpolations : Bool) (cs : List Char) : List Fragment :=
  place 0 (segments interpolations none cs)

def ofQuoted (interpolations : Bool) : List Char → List Fragment
  | [] => []
  | quote :: cs =>
    place quote.utf8Size (dropQuote quote (segments interpolations (some quote) cs))

def ofText (interpolations quoted : Bool) (text : String) : List Fragment :=
  if quoted then ofQuoted interpolations text.toList else ofBare interpolations text.toList

end Fragment

end HclLiteral
