import HclLiteral.Offset
import HclLiteral.Text.Basic
import HclLiteral.Text.Utf8

/-! Spans: the bytes of a text from `start` up to, but not including, `stop`. The two ends may be in
either order and beyond the text; `length` and `slice?` say when that matters. -/

namespace HclLiteral

structure Span where
  start : Nat
  stop : Nat
deriving DecidableEq, Repr

inductive SpanError
  | startTooLarge (value : Nat)
  | stopTooLarge (value : Nat)
deriving DecidableEq, Repr

def SpanError.message : SpanError → String
  | .startTooLarge n => tooLarge "start" n
  | .stopTooLarge n => tooLarge "end" n
where
  tooLarge (bound : String) (n : Nat) : String :=
    "span " ++ bound ++ " " ++ toString n ++ " (" ++ Numeral.upperHex n ++ ") exceeds u32::MAX ("
      ++ Numeral.upperHex Offset.max ++ ")"

namespace Span

instance : Inhabited Span := ⟨⟨0, 0⟩⟩

instance : Ord Span where
  compare s t := (compare s.start t.start).then (compare s.stop t.stop)

instance : ToString Span := ⟨fun s => toString s.start ++ ".." ++ toString s.stop⟩

/-- The span of a range; a start out of range is reported before a stop. -/
def ofRange? (start stop : Nat) : Except SpanError Span :=
  if Offset.max < start then .error (.startTooLarge start)
  else if Offset.max < stop then .error (.stopTooLarge stop)
  else .ok ⟨start, stop⟩

def length (s : Span) : Except Overflow Nat := Offset.sub s.stop s.start

def isEmpty (s : Span) : Bool := s.start == s.stop

def shiftRight (s : Span) (n : Nat) : Span :=
  ⟨Offset.addSaturating s.start n, Offset.addSaturating s.stop n⟩

def slice? (s : Span) (text : String) : Option String :=
  (Text.slice? text.toList s.start s.stop).map String.ofList

/-- The parts of `⟨start, stop⟩` that a sorted list of disjoint holes leaves uncovered. A hole that
ends by `start`, or starts at `stop` or later, takes nothing away. -/
def uncovered (start stop : Nat) : List Span → List Span
  | [] => if start < stop then [⟨start, stop⟩] else []
  | hole :: holes =>
    if hole.stop ≤ start || stop ≤ hole.start then uncovered start stop holes
    else if start < hole.start then ⟨start, hole.start⟩ :: uncovered hole.stop stop holes
    else uncovered hole.stop stop holes

def minus (range : Span) (holes : List Span) : List Span := uncovered range.start range.stop holes

def sort (spans : List Span) : List Span := spans.mergeSort fun s t => (compare s t).isLE

instance : Membership Nat Span := ⟨fun s x => s.start ≤ x ∧ x < s.stop⟩

theorem mem_iff {x : Nat} {s : Span} : x ∈ s ↔ s.start ≤ x ∧ x < s.stop := Iff.rfl

instance (x : Nat) (s : Span) : Decidable (x ∈ s) := decidable_of_iff _ mem_iff.symm

theorem shiftRight_eq {s : Span} {n : Nat} (hs : s.start + n ≤ Offset.max)
    (ht : s.stop + n ≤ Offset.max) : s.shiftRight n = ⟨s.start + n, s.stop + n⟩ := by
  simp [shiftRight, Offset.addSaturating_eq hs, Offset.addSaturating_eq ht]

end Span

end HclLiteral
