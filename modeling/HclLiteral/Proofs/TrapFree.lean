import HclLiteral.Embedding.Guarded
import HclLiteral.Proofs.DecodePass
import HclLiteral.Proofs.FragmentSweep
import HclLiteral.Proofs.HeredocPlaces
import HclLiteral.Proofs.SpanSearch
import HclLiteral.Proofs.StringPlaces

namespace HclLiteral

namespace Span

variable {s : Span} {n start stop : Nat}

lemma moveRight_eq (h : s.start ≤ s.stop) (hn : s.stop + n ≤ Offset.max) : s.moveRight n = .ok (s.shiftRight n) := by
  have hstart : s.start + n ≤ Offset.max := Nat.le_trans (Nat.add_le_add_right h n) hn
  simp only [moveRight, Offset.add_eq_ok hstart, Offset.add_eq_ok hn, Trap.lift_ok, ok_bind, shiftRight_eq hstart hn]
  rfl

lemma measured_eq (h : s.start ≤ s.stop) : s.measured = .ok s := by
  simp only [measured, length, Offset.sub_eq_ok h, Trap.lift_ok, ok_bind]
  rfl

lemma leaveTurn_eq (stop : Nat) (s : Nat × List Span) (hole : Span) (holes : List Span) :
    ∃ t, leaveTurn stop s hole = .ok t ∧
      t.2 ++ uncovered t.1 stop holes = s.2 ++ uncovered s.1 stop (hole :: holes) := by
  rw [leaveTurn, uncovered]
  by_cases hskip : (hole.stop ≤ s.1 || stop ≤ hole.start) = true
  · rw [if_pos hskip, if_pos hskip]
    exact ⟨s, rfl, rfl⟩
  · rw [if_neg hskip, if_neg hskip]
    by_cases hlt : s.1 < hole.start
    · rw [if_pos hlt, if_pos hlt, measured_eq (Nat.le_of_lt hlt), ok_bind]
      exact ⟨_, rfl, List.append_assoc _ _ _⟩
    · rw [if_neg hlt, if_neg hlt]
      exact ⟨_, rfl, rfl⟩

lemma leave_eq (range : Span) (holes : List Span) : range.leave holes = .ok (range.minus holes) := by
  have hall (s : Nat × List Span) :
      (holes.foldlM (leaveTurn range.stop) s >>= leaveLast range.stop) =
        .ok (s.2 ++ uncovered s.1 range.stop holes) := by
    induction holes generalizing s with
    | nil =>
      rw [List.foldlM_nil, uncovered]
      change leaveLast range.stop s = _
      by_cases hlt : s.1 < range.stop
      · rw [leaveLast, if_pos hlt, if_pos hlt, measured_eq (Nat.le_of_lt hlt)]
        rfl
      · rw [leaveLast, if_neg hlt, if_neg hlt, List.append_nil]
        rfl
    | cons hole holes ih =>
      obtain ⟨t, ht, hleft⟩ := leaveTurn_eq range.stop s hole holes
      rw [List.foldlM_cons, ht, ok_bind, ih t, hleft]
  exact hall (range.start, [])

end Span

namespace Interpolation

variable {text : String} {before part after : List Char}

lemma searchPart_eq (ht : text.toList = before ++ part ++ after) (h : Text.size text.toList ≤ Offset.max) :
    searchPart (Text.size before) part =
      .ok ((scanBytes none (Text.encode part)).map (·.shiftRight (Text.size before))) := by
  rw [ht, Text.size_append, Text.size_append] at h
  have hlength : (Text.encode part).length ≤ Offset.max := by
    rw [Text.length_encode]
    omega
  rw [searchPart, search_eq none (Text.isTail_encode part) hlength, ok_bind]
  apply mapM_eq_ok
  intro s hs
  obtain ⟨pos, hlayout, -⟩ := spans_layout (String.ofList part)
  rw [spans, scan, Text.bytes, String.toList_ofList] at hlayout
  have hcovers := (hlayout.covers s hs).2
  have hle := hcovers.stop_le_length
  rw [Text.bytes, Text.length_encode, String.toList_ofList] at hle
  exact Span.moveRight_eq (Nat.le_of_lt hcovers.start_lt_stop) (by omega)

lemma searchString_eq (h : Text.size text.toList ≤ Offset.max) : searchString text = .ok (stringPlaces text) := by
  rw [searchString, stringPlaces]
  by_cases ho : opener? (Text.bytes text) = none
  · rw [if_pos ho, if_pos ho]
    rfl
  · rw [if_neg ho, if_neg ho, Fragment.sweep_eq true true h, ok_bind]
    have hparts : (scannedFragments text).mapM (fun f => searchPart f.span.start f.text.toList) =
        .ok ((scannedFragments text).map placesOf) := by
      apply mapM_eq_ok
      intro f hf
      obtain ⟨hmem, hopens⟩ := List.mem_filter.mp hf
      obtain ⟨before, after, ht, hbefore, -⟩ :=
        ((Fragment.tilesQuoted_ofText true text).2.sound f hmem).exists_part hopens
      rw [← hbefore, searchPart_eq ht h, hbefore]
      rfl
    simp only [scannedFragments] at hparts
    simp only [hparts, ok_bind]
    rfl

lemma searchLines_eq {lines : List (List Char)} (ht : text.toList = before ++ lines.flatten)
    (h : Text.size text.toList ≤ Offset.max) :
    searchLines (Text.size before) lines = .ok (linePlaces (Text.size before) lines) := by
  induction lines generalizing before with
  | nil => rfl
  | cons line lines ih =>
    rw [List.flatten_cons, ← List.append_assoc] at ht
    have hrest := ih ht
    have hsum : Text.size before + Text.size line ≤ Offset.max := by
      rw [ht, Text.size_append, Text.size_append] at h
      omega
    have hoffset := Offset.ofPosition_eq (Nat.le_trans (Nat.le_add_left _ _) hsum)
    rw [Text.size_append] at hrest
    simp only [searchLines, searchPart_eq ht h, hoffset, Offset.add_eq_ok hsum, Trap.lift_ok, ok_bind, hrest]
    rfl

lemma searchPlaces_string (file : HostFile) (h : Text.size text.toList ≤ Offset.max) :
    searchPlaces file (.string text) = .ok (places file (.string text)) := by
  rw [searchPlaces, places]
  by_cases hf : file.interpolates = true
  · rw [if_pos hf, if_pos hf]
    exact searchString_eq h
  · rw [if_neg hf, if_neg hf]
    rfl

lemma searchPlaces_heredoc (file : HostFile) (h : Text.size text.toList ≤ Offset.max) :
    searchPlaces file (.heredoc text) = .ok (places file (.heredoc text)) := by
  rw [searchPlaces, places]
  by_cases hf : file.interpolates = true
  · have ht : text.toList = [] ++ (Text.lines text.toList).flatten := (Text.flatten_lines text.toList).symm
    rw [if_pos hf, if_pos hf]
    exact searchLines_eq ht h
  · rw [if_neg hf, if_neg hf]
    rfl

end Interpolation

lemma Injection.search_eq {text : String} (range : Span) (h : Text.size text.toList ≤ Offset.max) :
    search text range = .ok (ofText text range) := by
  rw [← Text.length_encode] at h
  by_cases ht : text = ""
  · subst ht
    rfl
  · rw [search, if_neg ht, Interpolation.search_eq none (Text.isTail_bytes text) h, ok_bind, ofText]
    cases Language.detect? text with
    | none => rfl
    | some language =>
      simp only [Span.leave_eq, ok_bind]
      rfl

open Escape in
/-- Read by position, no text shorter than 2^32 bytes ends in a trap: no byte or slice is missing, no offset, count
of braces or difference leaves its range, nothing made up stands in, and every loop comes to its end. The decoder is
at a character boundary in each turn, and at the end of the text in its last. -/
theorem literal_layer_never_traps (text : String) (hl : (Text.bytes text).length < 2 ^ 32) :
    (∀ interpolations, Pass.decode interpolations text = .ok (decode interpolations text) ∧
      Pass.decodeLossy interpolations text = .ok (decodeLossy interpolations text)) ∧
    (∀ lossy interpolations p, Pass.Reached lossy interpolations text.toList p →
      Text.IsBoundary text.toList p.pos ∧
      ∀ q, Pass.turn lossy interpolations text.toList p = .ok (.inl (.ok q)) →
        q = p ∧ p.pos = (Text.bytes text).length) ∧
    (∀ interpolations quoted,
      Fragment.sweep interpolations quoted text = .ok (Fragment.ofText interpolations quoted text)) ∧
    (∀ file, Interpolation.searchPlaces file (.string text) = .ok (Interpolation.places file (.string text)) ∧
      Interpolation.searchPlaces file (.heredoc text) = .ok (Interpolation.places file (.heredoc text))) ∧
    ∀ range, Injection.search text range = .ok (Injection.ofText text range) := by
  have h : Text.size text.toList ≤ Offset.max := by
    rw [← Text.length_encode]
    exact Nat.le_of_lt_succ hl
  refine ⟨?_, ?_, fun interpolations quoted => Fragment.sweep_eq interpolations quoted h, ?_, ?_⟩
  · intro interpolations
    exact ⟨Pass.decode_eq interpolations h, Pass.decodeLossy_eq interpolations h⟩
  · intro lossy interpolations p hp
    refine ⟨hp.isBoundary h, ?_⟩
    intro q hq
    rw [Text.bytes, Text.length_encode]
    exact hp.pos_of_end h hq
  · intro file
    exact ⟨Interpolation.searchPlaces_string file h, Interpolation.searchPlaces_heredoc file h⟩
  · intro range
    exact Injection.search_eq range h

def faultyText : String := "\x7bé\\🦀\\u00e9$\x7ba\\q$\x7b\"\x7d\"\x7d\x7d\\x$\x7bb"

open Escape in
theorem no_trap_in_faulty_text :
    (Text.bytes faultyText).length < 2 ^ 32 ∧
      Pass.decode true faultyText = .ok (.error ⟨3, .unknownLetter '🦀'⟩) ∧
      Pass.decodeLossy true faultyText = .ok (decodeLossy true faultyText) ∧
      Pass.Reached false true faultyText.toList ⟨3, 0, ['\x7b', 'é'], [0, 1, 2]⟩ ∧
      Text.IsBoundary faultyText.toList 3 ∧
      Fragment.sweep true true faultyText = .ok (Fragment.ofText true true faultyText) ∧
      Interpolation.searchPlaces ⟨"main.tf", true⟩ (.string faultyText) = .ok [⟨14, 25⟩, ⟨28, 31⟩] ∧
      Interpolation.searchPlaces ⟨"main.tf", true⟩ (.heredoc faultyText) = .ok [⟨14, 26⟩, ⟨28, 31⟩] ∧
      Injection.search faultyText ⟨1, 40⟩ =
        .ok ⟨some .json, [⟨1, 14⟩, ⟨26, 28⟩, ⟨31, 40⟩], [⟨14, 26⟩, ⟨28, 31⟩]⟩ := by
  have hl : (Text.bytes faultyText).length < 2 ^ 32 := by decide +kernel
  have hvalue : decode true faultyText = .error ⟨3, .unknownLetter '🦀'⟩ := by decide +kernel
  have hstring : Interpolation.places ⟨"main.tf", true⟩ (.string faultyText) = [⟨14, 25⟩, ⟨28, 31⟩] := by
    decide +kernel
  have hheredoc : Interpolation.places ⟨"main.tf", true⟩ (.heredoc faultyText) = [⟨14, 26⟩, ⟨28, 31⟩] := by
    decide +kernel
  have hinjection : Injection.ofText faultyText ⟨1, 40⟩ =
      ⟨some .json, [⟨1, 14⟩, ⟨26, 28⟩, ⟨31, 40⟩], [⟨14, 26⟩, ⟨28, 31⟩]⟩ := by decide +kernel
  have hreached : Pass.Reached false true faultyText.toList ⟨3, 0, ['\x7b', 'é'], [0, 1, 2]⟩ := by
    have hfirst : Pass.turn false true faultyText.toList Pass.start = .ok (.inr ⟨1, 0, ['\x7b'], [0]⟩) := by
      decide +kernel
    have hsecond : Pass.turn false true faultyText.toList ⟨1, 0, ['\x7b'], [0]⟩ =
        .ok (.inr ⟨3, 0, ['\x7b', 'é'], [0, 1, 2]⟩) := by decide +kernel
    exact .tail (.tail .refl hfirst) hsecond
  obtain ⟨hdecode, hpass, hsweep, hplaces, hsearch⟩ := literal_layer_never_traps faultyText hl
  refine ⟨hl, ?_, (hdecode true).2, hreached, (hpass false true _ hreached).1, hsweep true true, ?_, ?_, ?_⟩
  · rw [(hdecode true).1, hvalue]
  · rw [(hplaces _).1, hstring]
  · rw [(hplaces _).2, hheredoc]
  · rw [hsearch, hinjection]

end HclLiteral
