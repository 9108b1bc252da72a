import HclLiteral.Escape.Piece

namespace HclLiteral

namespace Numeral

def IsDigit (c : Char) (v : Nat) : Prop := c ∈ [Nat.digitChar v, (Nat.digitChar v).toUpper]

inductive Spells (base : Nat) : List Char → Nat → Prop
  | nil : Spells base [] 0
  | snoc {digits : List Char} {n v : Nat} {c : Char} :
      Spells base digits n → v < base → IsDigit c v → Spells base (digits ++ [c]) (n * base + v)

end Numeral

namespace Braces

/-- No closing brace comes before an opening one of its own, except for `n` of them. -/
def Within (n : Nat) (cs : List Char) : Prop :=
  ∀ front, front <+: cs → front.count '}' ≤ front.count '{' + n

end Braces

namespace Escape

def letters : List (Char × Char) :=
  [('a', '\x07'), ('b', '\x08'), ('f', '\x0C'), ('n', '\n'), ('t', '\t'), ('r', '\r'), ('v', '\x0B'),
    ('\\', '\\'), ('"', '"')]

def hexLetters : List (Char × Nat) := [('x', 2), ('u', 4), ('U', 8)]

def octalLimit (digits : List Char) : Nat :=
  if digits.head? ∈ [some '0', some '1', some '2', some '3'] then 3 else 2

/-- The characters `source` after a backslash and before `rest` stand for a character. -/
inductive Spelled : List Char → List Char → Char → Prop
  | letter {letter meaning : Char} {rest : List Char} :
      (letter, meaning) ∈ letters → Spelled [letter] rest meaning
  | octal {digits rest : List Char} {meaning : Char} :
      digits ≠ [] → Numeral.Spells 8 digits meaning.toNat → digits.length ≤ octalLimit digits →
      (digits.length < octalLimit digits → ∀ c ∈ rest.head?, ∀ v < 8, ¬ Numeral.IsDigit c v) →
      Spelled digits rest meaning
  | hex {letter meaning : Char} {width : Nat} {digits rest : List Char} :
      (letter, width) ∈ hexLetters → digits.length = width →
      Numeral.Spells 16 digits meaning.toNat → meaning ≠ '\n' → meaning ≠ '\r' →
      Spelled (letter :: digits) rest meaning

/-- The piece is a unit of literal text when `rest` comes after it. An interpolation runs to the brace
that balances its opener, or else to the end. -/
inductive IsUnit (interpolations : Bool) : Piece → List Char → Prop
  | char {c : Char} {rest : List Char} :
      c ≠ '\\' → ¬ (interpolations = true ∧ c = '$' ∧ rest.head? = some '{') →
      IsUnit interpolations (.verbatim [c]) rest
  | interpolation {inner rest : List Char} :
      interpolations = true → Braces.Within 0 inner → inner.count '}' = inner.count '{' →
      IsUnit interpolations (.verbatim ('$' :: '{' :: inner ++ ['}'])) rest
  | openInterpolation {inner : List Char} :
      interpolations = true → Braces.Within 0 inner →
      IsUnit interpolations (.verbatim ('$' :: '{' :: inner)) []
  | escape {source rest : List Char} {meaning : Char} :
      Spelled source rest meaning → IsUnit interpolations (.escape ('\\' :: source) meaning) rest

inductive Reads (interpolations : Bool) : List Char → List Piece → Prop
  | nil : Reads interpolations [] []
  | cons {unit : Piece} {rest : List Char} {units : List Piece} :
      IsUnit interpolations unit rest → Reads interpolations rest units →
      Reads interpolations (unit.source ++ rest) (unit :: units)

end Escape

end HclLiteral
