import HclLiteral.Interpolation.Spans

namespace HclLiteral.Interpolation

def attemptsFrom (gapLimit : Option Nat) (pos : Nat) (bs : List UInt8) : List Attempt :=
  attempt pos bs ::
    match _h : (attempt pos bs).resume? with
    | none => []
    | some resume =>
      match nextOpener? gapLimit (bs.drop (resume - pos)) with
      | none => []
      | some (gap, limit) => attemptsFrom limit (resume + gap) (bs.drop (resume - pos + gap))
termination_by bs.length
decreasing_by
  have := attempt_resume_bounds _h
  simp only [List.length_drop]
  omega

def attempts (gapLimit : Option Nat) (bs : List UInt8) : List Attempt :=
  match freeOpener? false bs with
  | none => []
  | some first => attemptsFrom gapLimit first (bs.drop first)

theorem attemptsFrom_eq (gapLimit : Option Nat) (pos : Nat) (bs : List UInt8) :
    attemptsFrom gapLimit pos bs =
      attempt pos bs ::
        match (attempt pos bs).resume? with
        | none => []
        | some resume =>
          match nextOpener? gapLimit (bs.drop (resume - pos)) with
          | none => []
          | some (gap, limit) => attemptsFrom limit (resume + gap) (bs.drop (resume - pos + gap)) := by
  rw [attemptsFrom]
  cases (attempt pos bs).resume? <;> rfl

theorem filterMap_span?_cons (a : Attempt) (as : List Attempt) :
    (a :: as).filterMap Attempt.span? = a.span?.toList ++ as.filterMap Attempt.span? := by
  cases a <;> rfl

theorem spansFrom_eq_filterMap (gapLimit : Option Nat) (pos : Nat) (bs : List UInt8) :
    spansFrom gapLimit pos bs = (attemptsFrom gapLimit pos bs).filterMap Attempt.span? := by
  rw [spansFrom, attemptsFrom, filterMap_span?_cons]
  congr 1
  generalize h : (attempt pos bs).resume? = resume?
  cases resume? with
  | none => rfl
  | some resume =>
    dsimp only
    cases nextOpener? gapLimit (bs.drop (resume - pos)) with
    | none => rfl
    | some next => exact spansFrom_eq_filterMap next.2 _ _
termination_by bs.length
decreasing_by
  have := attempt_resume_bounds (by assumption)
  simp only [List.length_drop]
  omega

theorem scanBytes_eq_filterMap (gapLimit : Option Nat) (bs : List UInt8) :
    scanBytes gapLimit bs = (attempts gapLimit bs).filterMap Attempt.span? := by
  rw [scanBytes, attempts]
  cases freeOpener? false bs with
  | none => rfl
  | some first => exact spansFrom_eq_filterMap gapLimit first _

/-- The spans of a text, without the last one if its attempt came to the end of the text. -/
def settledSpans (text : String) : List Span :=
  match (attempts none (Text.bytes text)).getLast? with
  | some (.unterminated _) => (spans text).dropLast
  | _ => spans text

end HclLiteral.Interpolation
