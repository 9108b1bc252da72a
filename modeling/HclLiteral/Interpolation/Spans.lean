import HclLiteral.Interpolation.Attempt

/-! The spans of all interpolations of a text. The first one starts at an opener that no dollar sign
escapes; each further one starts at the next opener, and an interpolation that stays open takes the
rest of the text. -/

namespace HclLiteral.Interpolation

/-- The gap before the leftmost opener, and the limit on the gaps after that; none if there is no
opener or the limit does not allow for the gap. -/
def nextOpener? (gapLimit : Option Nat) (bs : List UInt8) : Option (Nat × Option Nat) :=
  match opener? bs, gapLimit with
  | none, _ => none
  | some 0, limit => some (0, limit)
  | some (_ + 1), some 0 => none
  | some (gap + 1), some (limit + 1) => some (gap + 1, some limit)
  | some (gap + 1), none => some (gap + 1, none)

/-- The spans of bytes that start at offset `pos` with an opener. A limit is the number of gaps
between neighbouring spans that are passed over. -/
def spansFrom (gapLimit : Option Nat) (pos : Nat) (bs : List UInt8) : List Span :=
  (attempt pos bs).span?.toList ++
    match _h : (attempt pos bs).resume? with
    | none => []
    | some resume =>
      match nextOpener? gapLimit (bs.drop (resume - pos)) with
      | none => []
      | some (gap, limit) => spansFrom limit (resume + gap) (bs.drop (resume - pos + gap))
termination_by bs.length
decreasing_by
  have := attempt_resume_bounds _h
  simp only [List.length_drop]
  omega

def scanBytes (gapLimit : Option Nat) (bs : List UInt8) : List Span :=
  match freeOpener? false bs with
  | none => []
  | some first => spansFrom gapLimit first (bs.drop first)

def scan (gapLimit : Option Nat) (text : String) : List Span := scanBytes gapLimit (Text.bytes text)

def spans (text : String) : List Span := scan none text

def start? (text : String) : Option Nat := freeOpener? false (Text.bytes text)

end HclLiteral.Interpolation
