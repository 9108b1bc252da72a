import HclLiteral.Interpolation.Spans

namespace HclLiteral

inductive Language
  | json
  | shell
deriving DecidableEq, Repr

def Language.detect? (text : String) : Option Language :=
  match text.toList with
  | '{' :: _ => some .json
  | '#' :: '!' :: _ => some .shell
  | _ => none

structure Injection where
  language : Option Language
  leftovers : List Span
  interpolations : List Span
deriving DecidableEq, Repr

def Injection.ofText (text : String) (range : Span) : Injection :=
  let interpolations := Interpolation.spans text
  match Language.detect? text with
  | none => ⟨none, [], interpolations⟩
  | some language => ⟨some language, range.minus interpolations, interpolations⟩

end HclLiteral
