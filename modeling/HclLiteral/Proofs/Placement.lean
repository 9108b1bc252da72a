import HclLiteral.Embedding.Places
import HclLiteral.Proofs.SpanLayout

/-! Places in the parts of a text. Each part is scanned on its own and its spans are moved to where it stands,
so they stay within it, and those of later parts come after them. -/

namespace HclLiteral

namespace Span

def IsWithin (s range : Span) : Prop := range.start ≤ s.start ∧ s.stop ≤ range.stop

instance (s range : Span) : Decidable (s.IsWithin range) := inferInstanceAs (Decidable (_ ∧ _))

lemma shiftRight_shiftRight (s : Span) (m n : Nat) :
    (s.shiftRight m).shiftRight n = s.shiftRight (m + n) := by
  simp only [shiftRight, Offset.addSaturating, mk.injEq]
  constructor <;> omega

lemma shiftRight_apart {s t : Span} (h : s.stop ≤ t.start) (n : Nat) :
    (s.shiftRight n).stop ≤ (t.shiftRight n).start := by
  simp only [shiftRight, Offset.addSaturating]
  omega

end Span

namespace Interpolation

structure Placed (text : String) (found : List Span) : Prop where
  ordered : found.Pairwise fun s t => s.stop ≤ t.start
  nonempty : ∀ s ∈ found, s.start < s.stop
  inside : ∀ s ∈ found, s.stop ≤ (Text.bytes text).length
  boundaries : ∀ s ∈ found, Text.IsBoundary text.toList s.start ∧ Text.IsBoundary text.toList s.stop
  opener : ∀ s ∈ found, ∃ inner, Text.slice? text.toList s.start s.stop = some ('$' :: '{' :: inner)

structure PlacedIn (text : String) (range : Span) (found : List Span) : Prop where
  forward : range.start ≤ range.stop
  ordered : found.Pairwise fun s t => s.stop ≤ t.start
  within : ∀ s ∈ found, s.IsWithin range
  covers : ∀ s ∈ found, Covers text s

variable {text : String} {start mid stop : Nat} {found more : List Span}

namespace PlacedIn

lemma nil (h : start ≤ stop) : PlacedIn text ⟨start, stop⟩ [] :=
  ⟨h, .nil, List.forall_mem_nil _, List.forall_mem_nil _⟩

lemma append (h : PlacedIn text ⟨start, mid⟩ found) (h' : PlacedIn text ⟨mid, stop⟩ more) :
    PlacedIn text ⟨start, stop⟩ (found ++ more) where
  forward := Nat.le_trans h.forward h'.forward
  ordered := by
    apply List.pairwise_append.mpr
    refine ⟨h.ordered, h'.ordered, ?_⟩
    intro s hs t ht
    exact Nat.le_trans (h.within s hs).2 (h'.within t ht).1
  within := by
    refine List.forall_mem_append.mpr ⟨?_, ?_⟩
    · intro s hs
      exact ⟨(h.within s hs).1, Nat.le_trans (h.within s hs).2 h'.forward⟩
    · intro s hs
      exact ⟨Nat.le_trans h.forward (h'.within s hs).1, (h'.within s hs).2⟩
  covers := List.forall_mem_append.mpr ⟨h.covers, h'.covers⟩

lemma placed {range : Span} (h : PlacedIn text range found) : Placed text found where
  ordered := h.ordered
  nonempty s hs := (h.covers s hs).start_lt_stop
  inside s hs := (h.covers s hs).stop_le_length
  boundaries s hs := (h.covers s hs).boundaries
  opener s hs := (h.covers s hs).slice

end PlacedIn

lemma Covers.of_part {before part after : List Char} {s : Span} (ht : text.toList = before ++ part ++ after)
    (h : Covers (String.ofList part) s) :
    Covers text ⟨s.start + Text.size before, s.stop + Text.size before⟩ := by
  obtain ⟨front, inner, back, hpart, hstart, hstop⟩ := h
  rw [String.toList_ofList] at hpart
  refine ⟨before ++ front, inner, back ++ after, by simp [ht, hpart], ?_, ?_⟩
  · rw [Text.size_append, hstart, Nat.add_comm]
  · rw [List.append_assoc, Text.size_append, hstop, Nat.add_comm]

lemma placedIn_part {before part after : List Char} (ht : text.toList = before ++ part ++ after)
    (hl : (Text.bytes text).length ≤ Offset.max) :
    PlacedIn text ⟨Text.size before, Text.size before + Text.size part⟩
      ((scanBytes none (Text.encode part)).map (·.shiftRight (Text.size before))) := by
  have hspans : spans (String.ofList part) = scanBytes none (Text.encode part) := by
    rw [spans, scan, Text.bytes, String.toList_ofList]
  obtain ⟨pos, hlayout, -⟩ := spans_layout (String.ofList part)
  rw [hspans] at hlayout
  have hmoved : ∀ s ∈ scanBytes none (Text.encode part),
      (s.shiftRight (Text.size before)).IsWithin ⟨Text.size before, Text.size before + Text.size part⟩ ∧
        Covers text (s.shiftRight (Text.size before)) := by
    intro s hs
    have hcovers := (hlayout.covers s hs).2
    have hlt := hcovers.start_lt_stop
    have hle := hcovers.stop_le_length
    rw [Text.bytes, Text.length_encode, String.toList_ofList] at hle
    rw [Text.bytes, Text.length_encode, ht, Text.size_append, Text.size_append] at hl
    rw [Span.shiftRight_eq (by omega) (by omega)]
    refine ⟨⟨Nat.le_add_left _ _, ?_⟩, hcovers.of_part ht⟩
    simp only
    omega
  refine ⟨Nat.le_add_right _ _, ?_, ?_, ?_⟩
  · apply List.pairwise_map.mpr
    exact hlayout.ordered.imp fun h => Span.shiftRight_apart h _
  · exact List.forall_mem_map.mpr fun s hs => (hmoved s hs).1
  · exact List.forall_mem_map.mpr fun s hs => (hmoved s hs).2

end Interpolation

end HclLiteral
