import HclLiteral.Interpolation.Attempt

/-! The spans of a text by resynchronising one byte at a time: one scanner runs on as long as an
interpolation is open, and any token met outside one starts a fresh scanner a byte further. -/

namespace HclLiteral

def Scanner.restart (s : Scanner) : Scanner := ⟨s.pos + 1, s.rest.drop 1, []⟩

theorem Scanner.restart_rest_lt {s : Scanner} (h : s.next.1.tag.boundary ≠ .endOfText) :
    s.restart.rest.length < s.rest.length := by
  have := next_rest_lt_of_boundary h
  simp only [restart, List.length_drop]
  omega

namespace Interpolation

def stepwise (level start : Nat) (s : Scanner) : List Span :=
  match _h : s.next.1.tag.boundary with
  | .opening =>
    match level with
    | 0 => stepwise 1 s.pos s.next.2
    | level + 1 => stepwise (level + 2) start s.next.2
  | .closing =>
    match level with
    | 0 => stepwise 0 start s.restart
    | 1 => ⟨start, s.next.2.pos⟩ :: stepwise 0 start s.next.2
    | level + 2 => stepwise (level + 1) start s.next.2
  | .endOfText =>
    match level with
    | 0 => []
    | _ + 1 => [⟨start, s.pos⟩]
  | .other =>
    match level with
    | 0 => stepwise 0 start s.restart
    | level + 1 => stepwise (level + 1) start s.next.2
termination_by s.rest.length
decreasing_by
  all_goals
    first
    | exact Scanner.next_rest_lt_of_boundary (by simp [_h])
    | exact Scanner.restart_rest_lt (by simp [_h])

def stepwiseSpans (text : String) : List Span :=
  let bs := Text.bytes text
  match freeOpener? false bs with
  | none => []
  | some first => stepwise 0 first ⟨first, bs.drop first, []⟩

end Interpolation

end HclLiteral
