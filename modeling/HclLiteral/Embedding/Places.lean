import HclLiteral.Fragment
import HclLiteral.Interpolation.Spans

namespace HclLiteral

def Text.lines : List Char → List (List Char)
  | [] => []
  | c :: cs =>
    if c = '\n' then [c] :: lines cs
    else
      match lines cs with
      | [] => [[c]]
      | line :: rest => (c :: line) :: rest

structure HostFile where
  name : String
  allowed : Bool
deriving DecidableEq, Repr

/-- Files of variable values hold no interpolations. -/
def HostFile.interpolates (file : HostFile) : Bool :=
  file.allowed && !".tfvars".toList.isSuffixOf file.name.toList

inductive Literal
  | string (text : String)
  | heredoc (text : String)
deriving DecidableEq, Repr

namespace Interpolation

def fragmentPlaces (text : String) : List Span :=
  ((Fragment.ofText true true text).filter Fragment.opensInterpolation).flatMap fun f =>
    (spans f.text).map (·.shiftRight f.span.start)

def stringPlaces (text : String) : List Span :=
  if opener? (Text.bytes text) = none then [] else fragmentPlaces text

def linePlaces (start : Nat) : List (List Char) → List Span
  | [] => []
  | line :: rest =>
    (scanBytes none (Text.encode line)).map (·.shiftRight start)
      ++ linePlaces (start + Text.size line) rest

def heredocPlaces (text : String) : List Span := linePlaces 0 (Text.lines text.toList)

def places (file : HostFile) (literal : Literal) : List Span :=
  if file.interpolates then
    match literal with
    | .string text => stringPlaces text
    | .heredoc text => heredocPlaces text
  else []

end Interpolation

end HclLiteral
