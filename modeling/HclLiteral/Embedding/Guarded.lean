import HclLiteral.Embedding.Heredoc
import HclLiteral.Embedding.Places
import HclLiteral.Fragment.Sweep
import HclLiteral.Interpolation.Search

namespace HclLiteral

namespace Span

def moveRight (n : Nat) (s : Span) : Except Trap Span := do
  return ⟨← Offset.add s.start n, ← Offset.add s.stop n⟩

def measured (s : Span) : Except Trap Span := do
  let _ ← s.length
  return s

def leaveLast (stop : Nat) (s : Nat × List Span) : Except Trap (List Span) := do
  if s.1 < stop then return s.2 ++ [← measured ⟨s.1, stop⟩] else return s.2

def leaveTurn (stop : Nat) (s : Nat × List Span) (hole : Span) : Except Trap (Nat × List Span) := do
  if hole.stop ≤ s.1 || stop ≤ hole.start then return s
  else if s.1 < hole.start then return (hole.stop, s.2 ++ [← measured ⟨s.1, hole.start⟩])
  else return (hole.stop, s.2)

def leave (range : Span) (holes : List Span) : Except Trap (List Span) := do
  leaveLast range.stop (← holes.foldlM (leaveTurn range.stop) (range.start, []))

end Span

namespace Interpolation

def searchPart (start : Nat) (part : List Char) : Except Trap (List Span) := do
  (← search none (Text.encode part)).mapM (Span.moveRight start)

def searchString (text : String) : Except Trap (List Span) := do
  if opener? (Text.bytes text) = none then return []
  else
    let opening := (← Fragment.sweep true true text).filter Fragment.opensInterpolation
    return (← opening.mapM fun f => searchPart f.span.start f.text.toList).flatten

def searchLines (start : Nat) : List (List Char) → Except Trap (List Span)
  | [] => return []
  | line :: rest => do
    let found ← searchPart start line
    let next ← Offset.add start (Offset.ofPosition (Text.size line))
    return found ++ (← searchLines next rest)

def searchPlaces (file : HostFile) (literal : Literal) : Except Trap (List Span) :=
  if file.interpolates then
    match literal with
    | .string text => searchString text
    | .heredoc text => searchLines 0 (Text.lines text.toList)
  else return []

end Interpolation

def Injection.search (text : String) (range : Span) : Except Trap Injection := do
  if text = "" then return ⟨none, [], []⟩
  else
    let interpolations ← Interpolation.search none (Text.bytes text)
    match Language.detect? text with
    | none => return ⟨none, [], interpolations⟩
    | some language => return ⟨some language, ← range.leave interpolations, interpolations⟩

end HclLiteral
