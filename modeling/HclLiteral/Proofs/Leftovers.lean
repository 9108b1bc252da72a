import HclLiteral.Embedding.Heredoc
import HclLiteral.Proofs.SpanLayout
import Mathlib.Data.List.Basic

namespace HclLiteral

namespace Span

structure Apart (spans : List Span) : Prop where
  nonempty : ∀ s ∈ spans, s.start < s.stop
  ordered : spans.Pairwise fun s t => s.stop ≤ t.start

/-- The pieces hold the bytes of the range that are in no hole, and only a hole keeps two of them from
being one. -/
structure Leaves (range : Span) (holes pieces : List Span) : Prop where
  mem_iff : ∀ x, (∃ s ∈ pieces, x ∈ s) ↔ x ∈ range ∧ ∀ hole ∈ holes, x ∉ hole
  apart : Apart pieces
  separated : pieces.Pairwise fun s t => ∃ hole ∈ holes, ∃ x ∈ hole, s.stop ≤ x ∧ x < t.start

variable {start stop : Nat} {hole : Span} {holes : List Span}

lemma Apart.tail (h : Apart (hole :: holes)) : Apart holes where
  nonempty := (List.forall_mem_cons.mp h.nonempty).2
  ordered := (List.pairwise_cons.mp h.ordered).2

lemma not_mem_of_skipped (h : (hole.stop ≤ start || stop ≤ hole.start) = true) {x : Nat}
    (hx : start ≤ x) (hs : x < stop) : x ∉ hole := by
  simp only [Bool.or_eq_true, decide_eq_true_iff] at h
  rw [mem_iff]
  omega

lemma meets_of_not_skipped (h : ¬ (hole.stop ≤ start || stop ≤ hole.start) = true) :
    start < hole.stop ∧ hole.start < stop := by
  simp only [Bool.or_eq_true, decide_eq_true_iff] at h
  omega

lemma bounds_of_mem_uncovered :
    ∀ s ∈ uncovered start stop holes, start ≤ s.start ∧ s.start < s.stop ∧ s.stop ≤ stop := by
  fun_induction uncovered start stop holes with
  | case1 start h =>
    intro s hs
    obtain rfl := List.mem_singleton.mp hs
    exact ⟨Nat.le_refl start, h, Nat.le_refl stop⟩
  | case2 => exact List.forall_mem_nil _
  | case3 start hole holes hskip ih => exact ih
  | case4 start hole holes hskip hlt ih =>
    obtain ⟨hstop, hstart⟩ := meets_of_not_skipped hskip
    refine List.forall_mem_cons.mpr ⟨⟨Nat.le_refl start, hlt, Nat.le_of_lt hstart⟩, ?_⟩
    intro s hs
    obtain ⟨hle, hrest⟩ := ih s hs
    exact ⟨Nat.le_trans (Nat.le_of_lt hstop) hle, hrest⟩
  | case5 start hole holes hskip hle ih =>
    obtain ⟨hstop, -⟩ := meets_of_not_skipped hskip
    intro s hs
    obtain ⟨hle, hrest⟩ := ih s hs
    exact ⟨Nat.le_trans (Nat.le_of_lt hstop) hle, hrest⟩

lemma mem_uncovered (h : Apart holes) (x : Nat) :
    (∃ s ∈ uncovered start stop holes, x ∈ s) ↔
      (start ≤ x ∧ x < stop) ∧ ∀ hole ∈ holes, x ∉ hole := by
  fun_induction uncovered start stop holes with
  | case1 start hlt => simp [mem_iff]
  | case2 start hle =>
    simp only [List.not_mem_nil, false_and, exists_false, false_iff]
    omega
  | case3 start hole holes hskip ih =>
    rw [ih h.tail, List.forall_mem_cons]
    constructor
    · rintro ⟨hin, hout⟩
      exact ⟨hin, not_mem_of_skipped hskip hin.1 hin.2, hout⟩
    · rintro ⟨hin, -, hout⟩
      exact ⟨hin, hout⟩
  | case4 start hole holes hskip hlt ih =>
    obtain ⟨hstop, hstart⟩ := meets_of_not_skipped hskip
    have hne := h.nonempty hole List.mem_cons_self
    rw [List.exists_mem_cons_iff, ih h.tail, List.forall_mem_cons, mem_iff, mem_iff]
    constructor
    · rintro (hin | ⟨hin, hout⟩)
      · simp only at hin
        refine ⟨by omega, by omega, ?_⟩
        -- the holes that follow start behind this one, and so behind the piece in front of it
        intro next hnext hmem
        have := (List.pairwise_cons.mp h.ordered).1 next hnext
        rw [mem_iff] at hmem
        omega
      · exact ⟨by omega, by omega, hout⟩
    · rintro ⟨hin, hhole, hout⟩
      rcases Nat.lt_or_ge x hole.start with hx | hx
      · exact Or.inl ⟨hin.1, hx⟩
      · exact Or.inr ⟨by omega, hout⟩
  | case5 start hole holes hskip hle ih =>
    obtain ⟨hstop, hstart⟩ := meets_of_not_skipped hskip
    rw [ih h.tail, List.forall_mem_cons, mem_iff]
    constructor
    · rintro ⟨hin, hout⟩
      exact ⟨by omega, by omega, hout⟩
    · rintro ⟨hin, hhole, hout⟩
      exact ⟨by omega, hout⟩

lemma pairwise_uncovered (h : ∀ hole ∈ holes, hole.start < hole.stop) :
    (uncovered start stop holes).Pairwise fun s t =>
      ∃ hole ∈ holes, ∃ x ∈ hole, s.stop ≤ x ∧ x < t.start := by
  have hmono {hole : Span} {holes : List Span} {s t : Span} :
      (∃ other ∈ holes, ∃ x ∈ other, s.stop ≤ x ∧ x < t.start) →
        ∃ other ∈ hole :: holes, ∃ x ∈ other, s.stop ≤ x ∧ x < t.start := by
    rintro ⟨other, hother, hx⟩
    exact ⟨other, List.mem_cons_of_mem _ hother, hx⟩
  fun_induction uncovered start stop holes with
  | case1 => exact List.pairwise_singleton _ _
  | case2 => exact List.Pairwise.nil
  | case3 start hole holes hskip ih => exact (ih (List.forall_mem_cons.mp h).2).imp hmono
  | case4 start hole holes hskip hlt ih =>
    obtain ⟨hne, hrest⟩ := List.forall_mem_cons.mp h
    refine List.pairwise_cons.mpr ⟨?_, (ih hrest).imp hmono⟩
    intro t ht
    have hbehind := (bounds_of_mem_uncovered t ht).1
    exact ⟨hole, List.mem_cons_self, hole.start, ⟨Nat.le_refl _, hne⟩, Nat.le_refl _,
      Nat.lt_of_lt_of_le hne hbehind⟩
  | case5 start hole holes hskip hle ih => exact (ih (List.forall_mem_cons.mp h).2).imp hmono

lemma Apart.leaves_minus (h : Apart holes) (range : Span) : Leaves range holes (range.minus holes) := by
  have hseparated : (range.minus holes).Pairwise _ := pairwise_uncovered h.nonempty
  refine ⟨fun x => mem_uncovered h x, ⟨?_, ?_⟩, hseparated⟩
  · intro s hs
    exact (bounds_of_mem_uncovered s hs).2.1
  · apply hseparated.imp
    rintro s t ⟨hole, -, x, -, hs, ht⟩
    exact Nat.le_trans hs (Nat.le_of_lt ht)

end Span

lemma Interpolation.apart_spans (text : String) : Span.Apart (spans text) := by
  obtain ⟨pos, hlayout, -⟩ := spans_layout text
  exact ⟨hlayout.wellPlaced.nonempty, hlayout.ordered⟩

theorem leftovers_are_range_less_interpolations (text : String) (range : Span) (language : Language)
    (h : Language.detect? text = some language) :
    (Injection.ofText text range).language = some language ∧
    (Injection.ofText text range).interpolations = Interpolation.spans text ∧
    range.Leaves (Injection.ofText text range).interpolations (Injection.ofText text range).leftovers := by
  have hinjection : Injection.ofText text range =
      ⟨some language, range.minus (Interpolation.spans text), Interpolation.spans text⟩ := by
    simp only [Injection.ofText, h]
  rw [hinjection]
  exact ⟨rfl, rfl, (Interpolation.apart_spans text).leaves_minus range⟩

theorem leftovers_of_straddling_range :
    Language.detect? "\x7b$\x7ba\x7dé$\x7bb\x7d$\x7bc\x7dy" = some .json ∧
      (Injection.ofText "\x7b$\x7ba\x7dé$\x7bb\x7d$\x7bc\x7dy" ⟨3, 40⟩).leftovers = [⟨5, 7⟩, ⟨15, 40⟩] ∧
      Span.Leaves ⟨3, 40⟩ [⟨1, 5⟩, ⟨7, 11⟩, ⟨11, 15⟩] [⟨5, 7⟩, ⟨15, 40⟩] := by
  have hd : Language.detect? "\x7b$\x7ba\x7dé$\x7bb\x7d$\x7bc\x7dy" = some .json := by decide +kernel
  have hl : (Injection.ofText "\x7b$\x7ba\x7dé$\x7bb\x7d$\x7bc\x7dy" ⟨3, 40⟩).leftovers =
      [⟨5, 7⟩, ⟨15, 40⟩] := by decide +kernel
  have hi : (Injection.ofText "\x7b$\x7ba\x7dé$\x7bb\x7d$\x7bc\x7dy" ⟨3, 40⟩).interpolations =
      [⟨1, 5⟩, ⟨7, 11⟩, ⟨11, 15⟩] := by decide +kernel
  obtain ⟨-, -, hleaves⟩ := leftovers_are_range_less_interpolations _ ⟨3, 40⟩ _ hd
  rw [hl, hi] at hleaves
  exact ⟨hd, hl, hleaves⟩

end HclLiteral
