import HclLiteral.Span
import HclLiteral.Token.Scanner

/-! An attempt to read one interpolation: a fresh scanner runs until the outermost interpolation is
closed, the text ends, or a token turns up that opens none. -/

namespace HclLiteral

namespace Scanner

theorem next_boundary_of_rest_nil {s : Scanner} (h : s.rest = []) :
    s.next.1.tag.boundary = .endOfText := by
  obtain ⟨pos, rest, nesting⟩ := s
  cases h
  cases nesting <;> rfl

theorem next_rest_lt_of_boundary {s : Scanner} (h : s.next.1.tag.boundary ≠ .endOfText) :
    s.next.2.rest.length < s.rest.length :=
  next_rest_lt fun hr => h (next_boundary_of_rest_nil hr)

theorem next_pos (s : Scanner) : s.next.2.pos + s.next.2.rest.length = s.pos + s.rest.length := by
  have := Token.read_length_le s.rest
  simp only [next, List.length_drop]
  omega

theorem pos_le_next (s : Scanner) : s.pos ≤ s.next.2.pos := Nat.le_add_right _ _

end Scanner

namespace Interpolation

def opens : List UInt8 → Bool
  | b :: c :: _ => Mark.ofByte b = .dollar && Mark.ofByte c = .leftBrace
  | _ => false

def opener? : List UInt8 → Option Nat
  | [] => none
  | b :: bs => if opens (b :: bs) then some 0 else (opener? bs).map (· + 1)

/-- The offset of the leftmost opener with no dollar sign right before it, where `afterDollar` says
whether one comes before the bytes. -/
def freeOpener? (afterDollar : Bool) : List UInt8 → Option Nat
  | [] => none
  | b :: bs =>
    if opens (b :: bs) && !afterDollar then some 0
    else (freeOpener? (Mark.ofByte b = .dollar) bs).map (· + 1)

/-- How an attempt ends: at the closing brace, at the end of the text with or without an interpolation
open, or at a token outside of any. -/
inductive Attempt
  | closed (span : Span)
  | unterminated (span : Span)
  | exhausted
  | resync (offset : Nat)
deriving DecidableEq, Repr

namespace Attempt

def span? : Attempt → Option Span
  | closed span | unterminated span => some span
  | exhausted | resync _ => none

def resume? : Attempt → Option Nat
  | closed span => some span.stop
  | resync offset => some (offset + 1)
  | unterminated _ | exhausted => none

end Attempt

/-- An attempt in a text of `size` bytes with `level` interpolations open, the outermost from
`start`. -/
def attemptFrom (size level start : Nat) (s : Scanner) : Attempt :=
  match _h : s.next.1.tag.boundary with
  | .opening =>
    match level with
    | 0 => attemptFrom size 1 s.pos s.next.2
    | level + 1 => attemptFrom size (level + 2) start s.next.2
  | .closing =>
    match level with
    | 0 => .resync s.pos
    | 1 => .closed ⟨start, s.next.2.pos⟩
    | level + 2 => attemptFrom size (level + 1) start s.next.2
  | .endOfText =>
    match level with
    | 0 => .exhausted
    | _ + 1 => .unterminated ⟨start, min s.next.2.pos size⟩
  | .other =>
    match level with
    | 0 => .resync s.pos
    | level + 1 => attemptFrom size (level + 1) start s.next.2
termination_by s.rest.length
decreasing_by all_goals exact Scanner.next_rest_lt_of_boundary (by simp [_h])

def attempt (pos : Nat) (bs : List UInt8) : Attempt :=
  attemptFrom (pos + bs.length) 0 pos ⟨pos, bs, []⟩

theorem attemptFrom_resume_bounds {size level start : Nat} {s : Scanner} {n : Nat}
    (h : (attemptFrom size level start s).resume? = some n) :
    s.pos < n ∧ n ≤ s.pos + s.rest.length := by
  have he := s.next_pos
  fun_induction attemptFrom size level start s with
  | case1 start s hb ih | case2 start s hb level ih | case5 start s hb level ih
  | case9 start s hb level ih =>
    have hp := s.pos_le_next
    have hn := ih h s.next.2.next_pos
    omega
  | case3 start s hb | case8 start s hb =>
    have hl := Scanner.next_rest_lt_of_boundary (s := s) (by simp [hb])
    cases h
    omega
  | case4 start s hb =>
    have hl := Scanner.next_rest_lt_of_boundary (s := s) (by simp [hb])
    cases h
    simp only
    omega
  | case6 | case7 => cases h

theorem attempt_resume_bounds {pos : Nat} {bs : List UInt8} {n : Nat}
    (h : (attempt pos bs).resume? = some n) : pos < n ∧ n ≤ pos + bs.length :=
  attemptFrom_resume_bounds h

end Interpolation

end HclLiteral
