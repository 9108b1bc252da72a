import HclLiteral.Proofs.SpanLayout
import HclLiteral.Proofs.SpanMarks

namespace HclLiteral.Interpolation

def gaps (spans : List Span) : Nat := (spans.zip spans.tail).countP fun pair => pair.1.stop < pair.2.start

/-- The spans that come after `last`, up to the first gap that the limit does not allow for. -/
def withinLimit : Nat → Span → List Span → List Span
  | _, _, [] => []
  | limit, last, s :: rest =>
    if last.stop < s.start then
      match limit with
      | 0 => []
      | limit + 1 => s :: withinLimit limit s rest
    else s :: withinLimit limit s rest

variable {limit : Nat} {last s : Span} {rest front found : List Span}

lemma gaps_cons_cons (s t : Span) (rest : List Span) :
    gaps (s :: t :: rest) = gaps (t :: rest) + if s.stop < t.start then 1 else 0 := by
  simp [gaps, List.countP_cons]

lemma withinLimit_adjacent (h : ¬ last.stop < s.start) :
    withinLimit limit last (s :: rest) = s :: withinLimit limit s rest := by
  simp [withinLimit, h]

lemma withinLimit_gap_zero (h : last.stop < s.start) : withinLimit 0 last (s :: rest) = [] := by
  simp [withinLimit, h]

lemma withinLimit_gap_succ (h : last.stop < s.start) :
    withinLimit (limit + 1) last (s :: rest) = s :: withinLimit limit s rest := by
  simp [withinLimit, h]

lemma withinLimit_prefix (limit : Nat) (last : Span) (found : List Span) :
    withinLimit limit last found <+: found := by
  fun_induction withinLimit limit last found with
  | case1 => exact List.nil_prefix
  | case2 => exact List.nil_prefix
  | case3 last s rest _ limit ih => exact List.cons_prefix_cons.mpr ⟨rfl, ih⟩
  | case4 limit last s rest _ ih => exact List.cons_prefix_cons.mpr ⟨rfl, ih⟩

lemma gaps_withinLimit (limit : Nat) (last : Span) (found : List Span) :
    gaps (last :: withinLimit limit last found) ≤ limit := by
  fun_induction withinLimit limit last found with
  | case1 => simp [gaps]
  | case2 => simp [gaps]
  | case3 last s rest h limit ih =>
    rw [gaps_cons_cons, if_pos h]
    omega
  | case4 limit last s rest h ih =>
    rw [gaps_cons_cons, if_neg h]
    omega

lemma prefix_withinLimit (hf : front <+: found) (hg : gaps (last :: front) ≤ limit) :
    front <+: withinLimit limit last found := by
  induction front generalizing limit last found with
  | nil => exact List.nil_prefix
  | cons s front ih =>
    obtain ⟨rest, rfl, hrest⟩ := List.cons_prefix_iff.mp hf
    rw [gaps_cons_cons] at hg
    by_cases h : last.stop < s.start
    · rw [if_pos h] at hg
      obtain ⟨limit, rfl⟩ := Nat.exists_eq_add_of_lt (Nat.lt_of_lt_of_le (Nat.succ_pos _) hg)
      rw [Nat.zero_add, withinLimit_gap_succ h]
      apply List.cons_prefix_cons.mpr
      exact ⟨rfl, ih hrest (by omega)⟩
    · rw [if_neg h] at hg
      rw [withinLimit_adjacent h]
      apply List.cons_prefix_cons.mpr
      exact ⟨rfl, ih hrest hg⟩

def Truncates (pos : Nat) (bs : List UInt8) : Prop :=
  ∃ s rest, s.start = pos ∧ spansFrom none pos bs = s :: rest ∧
    ∀ limit, spansFrom (some limit) pos bs = s :: withinLimit limit s rest

lemma spansAfter_limited (last : Span) {bs : List UInt8}
    (h : ∀ gap, opener? bs = some gap → Truncates (last.stop + gap) (bs.drop gap)) (limit : Nat) :
    spansAfter (some limit) last.stop bs = withinLimit limit last (spansAfter none last.stop bs) := by
  rw [spansAfter, spansAfter, nextOpener?_none]
  cases hf : opener? bs with
  | none => simp [nextOpener?, hf, withinLimit]
  | some gap =>
    obtain ⟨s, rest, hstart, hnone, hsome⟩ := h gap hf
    cases gap with
    | zero =>
      simp only [nextOpener?, hf, Option.map_some, hnone, hsome]
      rw [withinLimit_adjacent (by omega)]
    | succ gap =>
      cases limit with
      | zero =>
        simp only [nextOpener?, hf, Option.map_some, hnone]
        rw [withinLimit_gap_zero (by omega)]
      | succ limit =>
        simp only [nextOpener?, hf, Option.map_some, hnone, hsome]
        rw [withinLimit_gap_succ (by omega)]

lemma truncates_of_opens {bs : List UInt8} (ht : Text.IsTail bs) (ho : opens bs = true) (pos : Nat) :
    Truncates pos bs := by
  induction bs using (measure List.length).wf.induction generalizing pos with
  | h bs ih =>
    have hfrom := spansFrom_eq ht ho
    obtain ⟨body, rfl⟩ := opens_iff.mp ho
    cases hr : Quoted.run [.interpolation 0] body with
    | none =>
      simp only [List.drop_succ_cons, List.drop_zero, hr] at hfrom
      refine ⟨_, [], rfl, hfrom none pos, fun limit => ?_⟩
      simp only [hfrom, withinLimit]
    | some n =>
      simp only [List.drop_succ_cons, List.drop_zero, hr] at hfrom
      refine ⟨_, _, rfl, hfrom none pos, fun limit => ?_⟩
      rw [hfrom]
      congr 1
      apply spansAfter_limited ⟨pos, pos + 2 + n⟩
      -- the bytes behind the closing brace are fewer
      intro gap hgap
      have hlt : ((body.drop n).drop gap).length < (0x24 :: 0x7B :: body).length := by
        simp only [List.length_drop, List.length_cons]
        omega
      exact ih _ hlt (((ht.drop 2).drop n).drop gap) (opens_of_opener? hgap) _

lemma scan_limited (text : String) :
    (spans text = [] ∧ ∀ limit, scan (some limit) text = []) ∨
      ∃ s rest, spans text = s :: rest ∧
        ∀ limit, scan (some limit) text = s :: withinLimit limit s rest := by
  have hs := freeOpener?_spec false (Text.bytes text)
  simp only [spans, scan, scanBytes]
  cases hf : freeOpener? false (Text.bytes text) with
  | none => simp
  | some first =>
    rw [hf] at hs
    obtain ⟨s, rest, -, hnone, hsome⟩ :=
      truncates_of_opens ((Text.isTail_bytes text).drop first) (opens_of_freeAt hs.1) first
    exact Or.inr ⟨s, rest, hnone, hsome⟩

lemma Layout.gaps_le {text : String} {pos : Nat} (h : Layout text pos found)
    (hp : pos ≤ (Text.bytes text).length) (last : Span) (hl : last.stop = pos) :
    pos + gaps (last :: found) ≤ (Text.bytes text).length := by
  induction h generalizing last with
  | done => simpa [gaps] using hp
  | unterminated hle _ ho =>
    have := ho.lt_length
    rw [gaps_cons_cons]
    simp only [gaps, List.zip_nil_right, List.tail_cons, List.countP_nil]
    split <;> omega
  | @closed pos start stop found hle _ ho hc _ ih =>
    have hcovers := Covers.of_closesAt ho hc
    have hlt := hcovers.start_lt_stop
    have := ih hcovers.stop_le_length ⟨start, stop⟩ rfl
    simp only at hlt
    rw [gaps_cons_cons]
    split <;> omega

lemma gaps_spans_le (text : String) : gaps (spans text) ≤ (Text.bytes text).length := by
  obtain ⟨pos, hl, -⟩ := spans_layout text
  generalize spans text = found at hl
  cases hl with
  | done => simp [gaps]
  | unterminated => simp [gaps]
  | @closed _ start stop _ _ _ ho hc hrest =>
    have := hrest.gaps_le (Covers.of_closesAt ho hc).stop_le_length ⟨start, stop⟩ rfl
    omega

lemma gaps_mono (h : front <+: found) : gaps front ≤ gaps found := by
  induction front generalizing found with
  | nil => simp [gaps]
  | cons s front ih =>
    obtain ⟨rest, rfl, hrest⟩ := List.cons_prefix_iff.mp h
    cases front with
    | nil => simp [gaps]
    | cons t front =>
      have := ih hrest
      obtain ⟨rest, rfl, -⟩ := List.cons_prefix_iff.mp hrest
      rw [gaps_cons_cons, gaps_cons_cons]
      omega

lemma gaps_concat_adjacent (front : List Span) {s t : Span} (h : s.stop = t.start) :
    gaps (front ++ [s, t]) = gaps (front ++ [s]) := by
  induction front with
  | nil => simp [gaps, h]
  | cons r front ih =>
    cases front with
    | nil => simp [gaps, h, List.countP_cons]
    | cons r' front =>
      simp only [List.cons_append, gaps_cons_cons] at ih ⊢
      rw [ih]

lemma scan_prefix_spans (text : String) (limit : Nat) : scan (some limit) text <+: spans text := by
  obtain ⟨he, hs⟩ | ⟨s, rest, he, hs⟩ := scan_limited text
  · simp [he, hs]
  · rw [he, hs]
    exact List.cons_prefix_cons.mpr ⟨rfl, withinLimit_prefix limit s rest⟩

lemma gaps_scan_le (text : String) (limit : Nat) : gaps (scan (some limit) text) ≤ limit := by
  obtain ⟨-, hs⟩ | ⟨s, rest, -, hs⟩ := scan_limited text
  · simp [hs, gaps]
  · rw [hs]
    exact gaps_withinLimit limit s rest

lemma prefix_scan {text : String} (hf : front <+: spans text) (hg : gaps front ≤ limit) :
    front <+: scan (some limit) text := by
  obtain ⟨he, hs⟩ | ⟨s, rest, he, hs⟩ := scan_limited text
  · rwa [hs, ← he]
  · rw [he] at hf
    rw [hs]
    cases front with
    | nil => exact List.nil_prefix
    | cons t front =>
      obtain ⟨rfl, hrest⟩ := List.cons_prefix_cons.mp hf
      exact List.cons_prefix_cons.mpr ⟨rfl, prefix_withinLimit hrest hg⟩

/-- A limited scan gives the longest part of the spans, from the first one on, that has no more gaps than
the limit. So a larger limit gives no less, and a span that touches the one before it costs nothing. All
the gaps of a text are no more than its bytes. -/
theorem limited_scan_takes_longest (text : String) (limit : Nat) :
    scan (some limit) text <+: spans text ∧ gaps (scan (some limit) text) ≤ limit ∧
    (∀ front, front <+: spans text → gaps front ≤ limit → front <+: scan (some limit) text) ∧
    (∀ larger, limit ≤ larger → scan (some limit) text <+: scan (some larger) text) ∧
    (∀ front s t, front ++ [s] <+: scan (some limit) text → front ++ [s, t] <+: spans text →
      s.stop = t.start → front ++ [s, t] <+: scan (some limit) text) ∧
    gaps (spans text) ≤ (Text.bytes text).length := by
  have hg := gaps_scan_le text limit
  refine ⟨scan_prefix_spans text limit, hg, fun front => prefix_scan, ?_, ?_, gaps_spans_le text⟩
  · intro larger hle
    exact prefix_scan (scan_prefix_spans text limit) (Nat.le_trans hg hle)
  · intro front s t hs ht hadj
    apply prefix_scan ht
    rw [gaps_concat_adjacent front hadj]
    exact Nat.le_trans (gaps_mono hs) hg

theorem limited_scan_of_four_spans :
    spans "$\x7ba\x7d$\x7bb\x7d.$\x7bc\x7d$$\x7bd" = [⟨0, 4⟩, ⟨4, 8⟩, ⟨9, 13⟩, ⟨14, 17⟩] ∧
      [⟨0, 4⟩, ⟨4, 8⟩] <+: scan (some 0) "$\x7ba\x7d$\x7bb\x7d.$\x7bc\x7d$$\x7bd" ∧
      scan (some 0) "$\x7ba\x7d$\x7bb\x7d.$\x7bc\x7d$$\x7bd" <+:
        scan (some 1) "$\x7ba\x7d$\x7bb\x7d.$\x7bc\x7d$$\x7bd" ∧
      [⟨0, 4⟩, ⟨4, 8⟩, ⟨9, 13⟩] <+: scan (some 1) "$\x7ba\x7d$\x7bb\x7d.$\x7bc\x7d$$\x7bd" := by
  have hs : spans "$\x7ba\x7d$\x7bb\x7d.$\x7bc\x7d$$\x7bd" =
      [⟨0, 4⟩, ⟨4, 8⟩, ⟨9, 13⟩, ⟨14, 17⟩] := by decide +kernel
  have hl := limited_scan_takes_longest "$\x7ba\x7d$\x7bb\x7d.$\x7bc\x7d$$\x7bd"
  refine ⟨hs, ?_, (hl 0).2.2.2.1 1 (by decide), ?_⟩
  · exact (hl 0).2.2.2.2.1 [] ⟨0, 4⟩ ⟨4, 8⟩ (by decide +kernel) (hs ▸ by decide) rfl
  · exact (hl 1).2.2.1 _ (hs ▸ by decide) (by decide)

end HclLiteral.Interpolation
