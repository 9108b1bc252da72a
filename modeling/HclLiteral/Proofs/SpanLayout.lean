import HclLiteral.Proofs.Spans

namespace HclLiteral.Interpolation

def OpenerAt (text : String) (i : Nat) : Prop :=
  (Text.bytes text)[i]? = some 0x24 ∧ (Text.bytes text)[i + 1]? = some 0x7B

def FreeOpenerAt (text : String) (i : Nat) : Prop :=
  OpenerAt text i ∧ (i = 0 ∨ (Text.bytes text)[i - 1]? ≠ some 0x24)

lemma opens_drop_iff {text : String} {i : Nat} :
    opens ((Text.bytes text).drop i) = true ↔ OpenerAt text i := by
  rw [opens_iff]
  constructor
  · rintro ⟨rest, h⟩
    refine ⟨?_, ?_⟩
    · rw [← List.head?_drop, h]
      rfl
    · rw [← List.head?_drop, ← List.drop_drop, h]
      rfl
  · rintro ⟨h₁, h₂⟩
    obtain ⟨hl₁, h₁⟩ := List.getElem?_eq_some_iff.mp h₁
    obtain ⟨hl₂, h₂⟩ := List.getElem?_eq_some_iff.mp h₂
    exact ⟨_, by rw [List.drop_eq_getElem_cons hl₁, List.drop_eq_getElem_cons hl₂, h₁, h₂]⟩

lemma freeAt_iff {text : String} {i : Nat} :
    FreeAt false (Text.bytes text) i ↔ FreeOpenerAt text i := by
  cases i with
  | zero => simp [FreeAt, FreeOpenerAt, ← opens_drop_iff]
  | succ i => simp [FreeAt, FreeOpenerAt, ← opens_drop_iff]

lemma start?_spec (text : String) :
    match start? text with
    | some n => FreeOpenerAt text n ∧ ∀ m < n, ¬ FreeOpenerAt text m
    | none => ∀ m, ¬ FreeOpenerAt text m := by
  have hs := freeOpener?_spec false (Text.bytes text)
  simp only [freeAt_iff] at hs
  exact hs

lemma start?_eq_some_iff {text : String} {n : Nat} :
    start? text = some n ↔ FreeOpenerAt text n ∧ ∀ m < n, ¬ FreeOpenerAt text m := by
  have hs := start?_spec text
  cases hf : start? text with
  | none =>
    rw [hf] at hs
    simp [hs n]
  | some first =>
    rw [hf] at hs
    simp only [Option.some.injEq]
    constructor
    · rintro rfl
      exact hs
    · rintro ⟨hn, hm⟩
      rcases Nat.lt_trichotomy first n with h | h | h
      · exact absurd hs.1 (hm first h)
      · exact h
      · exact absurd hn (hs.2 n h)

lemma start?_eq_none_iff {text : String} : start? text = none ↔ ∀ i, ¬ FreeOpenerAt text i := by
  have hs := start?_spec text
  cases hf : start? text with
  | none =>
    rw [hf] at hs
    exact iff_of_true rfl hs
  | some first =>
    rw [hf] at hs
    exact iff_of_false (Option.some_ne_none first) fun h => h first hs.1

lemma opener?_spec (bs : List UInt8) :
    match opener? bs with
    | some n => opens (bs.drop n) = true ∧ ∀ m < n, opens (bs.drop m) = false
    | none => ∀ m, opens (bs.drop m) = false := by
  induction bs with
  | nil =>
    intro m
    rw [List.drop_nil]
    rfl
  | cons b bs ih =>
    rw [opener?]
    by_cases h : opens (b :: bs) = true
    · rw [if_pos h]
      exact ⟨h, fun m hm => absurd hm (Nat.not_lt_zero m)⟩
    · rw [if_neg h]
      rw [Bool.not_eq_true] at h
      cases hf : opener? bs with
      | none =>
        rw [hf] at ih
        rintro (_ | m)
        · exact h
        · exact ih m
      | some n =>
        rw [hf] at ih
        refine ⟨ih.1, ?_⟩
        rintro (_ | m) hm
        · exact h
        · exact ih.2 m (Nat.lt_of_succ_lt_succ hm)

inductive Layout (text : String) : Nat → List Span → Prop
  | done {pos : Nat} : (∀ i ≥ pos, ¬ OpenerAt text i) → Layout text pos []
  | unterminated {pos start : Nat} :
      pos ≤ start → (∀ i ≥ pos, i < start → ¬ OpenerAt text i) → OpenerAt text start →
      Layout text pos [⟨start, (Text.bytes text).length⟩]
  | closed {pos start stop : Nat} {spans : List Span} :
      pos ≤ start → (∀ i ≥ pos, i < start → ¬ OpenerAt text i) → OpenerAt text start →
      ClosesAt text start stop → Layout text stop spans →
      Layout text pos (⟨start, stop⟩ :: spans)

def Covers (text : String) (s : Span) : Prop :=
  ∃ before inner after, text.toList = before ++ '$' :: '{' :: inner ++ after ∧
    Text.size before = s.start ∧ Text.size (before ++ '$' :: '{' :: inner) = s.stop

namespace Covers

lemma of_closesAt {text : String} {start stop : Nat} (ho : OpenerAt text start)
    (hc : ClosesAt text start stop) : Covers text ⟨start, stop⟩ := by
  obtain ⟨before, rest, ht, rfl⟩ := exists_of_opens_drop (opens_drop_iff.mpr ho)
  obtain ⟨n, hn, rfl⟩ := (closesAt_iff ht stop).mp hc
  obtain ⟨body, after, rfl, -, rfl⟩ := run_interpolation_iff.mp hn
  refine ⟨before, body ++ ['}'], after, ?_, rfl, ?_⟩
  · rw [ht]
    simp
  · have hz : Text.size ('$' :: '{' :: (body ++ ['}'])) = 1 + (1 + (Text.size body + 1)) := by
      rw [Text.size_cons, Text.size_cons, Text.size_append]
      rfl
    rw [Text.size_append, hz]
    simp only
    omega

lemma of_openerAt {text : String} {start : Nat} (ho : OpenerAt text start) :
    Covers text ⟨start, (Text.bytes text).length⟩ := by
  obtain ⟨before, rest, ht, rfl⟩ := exists_of_opens_drop (opens_drop_iff.mpr ho)
  refine ⟨before, rest, [], ?_, rfl, ?_⟩
  · rw [ht, List.append_nil]
  · rw [Text.bytes, Text.length_encode, ht]

variable {text : String} {s : Span}

lemma start_lt_stop (h : Covers text s) : s.start < s.stop := by
  obtain ⟨before, inner, -, -, hstart, hstop⟩ := h
  rw [Text.size_append, Text.size_cons] at hstop
  have := Char.utf8Size_pos '$'
  omega

lemma stop_le_length (h : Covers text s) : s.stop ≤ (Text.bytes text).length := by
  obtain ⟨before, inner, after, ht, -, hstop⟩ := h
  rw [Text.bytes, Text.length_encode, ht, Text.size_append, hstop]
  exact Nat.le_add_right _ _

lemma boundaries (h : Covers text s) :
    Text.IsBoundary text.toList s.start ∧ Text.IsBoundary text.toList s.stop := by
  obtain ⟨before, inner, after, ht, hstart, hstop⟩ := h
  rw [Text.isBoundary_iff, Text.isBoundary_iff]
  refine ⟨⟨before, '$' :: '{' :: inner ++ after, ?_, hstart⟩, ⟨_, after, ht, hstop⟩⟩
  rw [ht, List.append_assoc]

lemma slice (h : Covers text s) :
    ∃ inner, Text.slice? text.toList s.start s.stop = some ('$' :: '{' :: inner) := by
  obtain ⟨before, inner, after, ht, hstart, hstop⟩ := h
  refine ⟨inner, ?_⟩
  rw [ht, ← hstop, ← hstart, Text.size_append]
  exact Text.slice?_append before ('$' :: '{' :: inner) after

end Covers

lemma closesAt_of_run {text : String} {start n : Nat} (ho : OpenerAt text start)
    (h : Quoted.run [.interpolation 0] (((Text.bytes text).drop start).drop 2) = some n) :
    ClosesAt text start (start + 2 + n) := by
  rw [← opens_drop_iff] at ho
  rw [← attempt_closed_iff ho, attempt_eq ((Text.isTail_bytes text).drop start) ho, h]

lemma OpenerAt.lt_length {text : String} {i : Nat} (h : OpenerAt text i) :
    i + 2 ≤ (Text.bytes text).length :=
  (List.getElem?_eq_some_iff.mp h.2).1

lemma not_openerAt {text : String} {pos i : Nat} (hi : pos ≤ i)
    (h : opens (((Text.bytes text).drop pos).drop (i - pos)) = false) : ¬ OpenerAt text i := by
  intro ho
  rw [List.drop_drop, Nat.add_sub_cancel' hi, opens_drop_iff.mpr ho] at h
  cases h

lemma layout_spansAfter (text : String) (pos : Nat) :
    Layout text pos (spansAfter none pos ((Text.bytes text).drop pos)) := by
  -- by the bytes left: a span closes past its opener, so the search after it has fewer
  induction hk : (Text.bytes text).length - pos using Nat.strongRecOn generalizing pos with
  | ind k ih =>
    have hs := opener?_spec ((Text.bytes text).drop pos)
    rw [spansAfter, nextOpener?_none]
    cases hf : opener? ((Text.bytes text).drop pos) with
    | none =>
      rw [hf] at hs
      exact .done fun i hi => not_openerAt hi (hs (i - pos))
    | some gap =>
      rw [hf] at hs
      have hgap : ∀ i ≥ pos, i < pos + gap → ¬ OpenerAt text i :=
        fun i hi hlt => not_openerAt hi (hs.2 (i - pos) (by omega))
      have ho := hs.1
      rw [List.drop_drop] at ho
      simp only [Option.map_some, List.drop_drop]
      rw [spansFrom_eq ((Text.isTail_bytes text).drop _) ho]
      rw [opens_drop_iff] at ho
      have hl := ho.lt_length
      cases hr : Quoted.run [.interpolation 0] (((Text.bytes text).drop (pos + gap)).drop 2) with
      | none =>
        rw [List.length_drop, Nat.add_sub_cancel' (by omega)]
        exact .unterminated (Nat.le_add_right pos gap) hgap ho
      | some n =>
        simp only [List.drop_drop]
        refine .closed (Nat.le_add_right pos gap) hgap ho (closesAt_of_run ho hr) ?_
        exact ih _ (by omega) _ rfl

namespace Layout

variable {text : String} {pos : Nat} {spans : List Span}

lemma covers (h : Layout text pos spans) : ∀ s ∈ spans, pos ≤ s.start ∧ Covers text s := by
  induction h with
  | done => simp
  | unterminated hp _ ho =>
    intro s hs
    obtain rfl := List.mem_singleton.mp hs
    exact ⟨hp, Covers.of_openerAt ho⟩
  | closed hp _ ho hc _ ih =>
    have hcovers := Covers.of_closesAt ho hc
    intro s hs
    rcases List.mem_cons.mp hs with rfl | hs
    · exact ⟨hp, hcovers⟩
    · obtain ⟨hstart, hs⟩ := ih s hs
      have hlt := hcovers.start_lt_stop
      exact ⟨Nat.le_trans (Nat.le_trans hp (Nat.le_of_lt hlt)) hstart, hs⟩

lemma ordered (h : Layout text pos spans) : spans.Pairwise fun s t => s.stop ≤ t.start := by
  induction h with
  | done => exact List.Pairwise.nil
  | unterminated => exact List.pairwise_singleton _ _
  | closed _ _ _ _ hrest ih => exact List.pairwise_cons.mpr ⟨fun t ht => (hrest.covers t ht).1, ih⟩

lemma stops (h : Layout text pos spans) :
    (∀ s ∈ spans.dropLast, (Text.bytes text)[s.stop - 1]? = some 0x7D) ∧
      ∀ s ∈ spans.getLast?, (Text.bytes text)[s.stop - 1]? = some 0x7D ∨
        s.stop = (Text.bytes text).length := by
  induction h with
  | done => simp
  | unterminated => simp
  | @closed _ _ _ spans _ _ _ hc _ ih =>
    cases spans with
    | nil => simp [hc.1]
    | cons t spans =>
      rw [List.dropLast_cons_cons, List.getLast?_cons_cons, List.forall_mem_cons]
      exact ⟨⟨hc.1, ih.1⟩, ih.2⟩

lemma complete (h : Layout text pos spans) {i : Nat} (hi : pos ≤ i) (ho : OpenerAt text i) :
    ∃ s ∈ spans, s.start ≤ i ∧ i + 2 ≤ s.stop := by
  induction h with
  | done hn => exact absurd ho (hn i hi)
  | @unterminated _ start _ hn _ =>
    refine ⟨_, List.mem_cons_self, ?_, ho.lt_length⟩
    by_contra hlt
    exact hn i hi (Nat.lt_of_not_le hlt) ho
  | @closed _ start stop spans hp hn _ hc _ ih =>
    have hstart : start ≤ i := by
      by_contra hlt
      exact hn i hi (Nat.lt_of_not_le hlt) ho
    by_cases hstop : stop ≤ i
    · obtain ⟨s, hs, hin⟩ := ih hstop
      exact ⟨s, List.mem_cons_of_mem _ hs, hin⟩
    · refine ⟨_, List.mem_cons_self, hstart, ?_⟩
      by_contra hlt
      have hb := hc.1
      obtain he | he : stop - 1 = i ∨ stop - 1 = i + 1 := by
        simp only at hlt
        omega
      · rw [he, ho.1] at hb
        cases hb
      · rw [he, ho.2] at hb
        cases hb

lemma head_start (h : Layout text pos spans) (ho : OpenerAt text pos) :
    spans.head?.map Span.start = some pos := by
  have hle {start : Nat} (hn : ∀ i ≥ pos, i < start → ¬ OpenerAt text i) : start ≤ pos := by
    by_contra hlt
    exact hn pos (Nat.le_refl pos) (Nat.lt_of_not_le hlt) ho
  cases h with
  | done hn => exact absurd ho (hn pos (Nat.le_refl pos))
  | unterminated hp hn _ => exact congrArg some (Nat.le_antisymm (hle hn) hp)
  | closed hp hn _ _ _ => exact congrArg some (Nat.le_antisymm (hle hn) hp)

end Layout

lemma spans_layout (text : String) :
    ∃ pos, Layout text pos (spans text) ∧ (spans text).head?.map Span.start = start? text := by
  cases hs : start? text with
  | none =>
    have he : spans text = [] := by
      rw [start?] at hs
      rw [spans, scan, scanBytes, hs]
    refine ⟨(Text.bytes text).length, he ▸ .done fun i hi ho => ?_, by rw [he]; rfl⟩
    have := ho.lt_length
    omega
  | some first =>
    have ho := (start?_eq_some_iff.mp hs).1.1
    have hl : Layout text first (spans text) := by
      rw [start?] at hs
      rw [spans, scan, scanBytes, hs]
      simp only
      rw [← spansAfter_of_opens (opens_drop_iff.mpr ho)]
      exact layout_spansAfter text first
    exact ⟨first, hl, hl.head_start ho⟩

structure WellPlaced (text : String) (spans : List Span) : Prop where
  ordered : spans.Pairwise fun s t => s.stop ≤ t.start
  nonempty : ∀ s ∈ spans, s.start < s.stop
  inside : ∀ s ∈ spans, s.stop ≤ (Text.bytes text).length
  boundaries : ∀ s ∈ spans, Text.IsBoundary text.toList s.start ∧ Text.IsBoundary text.toList s.stop
  opener : ∀ s ∈ spans, ∃ inner, Text.slice? text.toList s.start s.stop = some ('$' :: '{' :: inner)
  closed : ∀ s ∈ spans.dropLast, (Text.bytes text)[s.stop - 1]? = some 0x7D
  last : ∀ s ∈ spans.getLast?,
    (Text.bytes text)[s.stop - 1]? = some 0x7D ∨ s.stop = (Text.bytes text).length
  complete : ∀ first ∈ spans.head?, ∀ i ≥ first.start, OpenerAt text i →
    ∃ s ∈ spans, s.start ≤ i ∧ i + 2 ≤ s.stop

lemma Layout.wellPlaced {text : String} {pos : Nat} {spans : List Span} (h : Layout text pos spans) :
    WellPlaced text spans where
  ordered := h.ordered
  nonempty s hs := (h.covers s hs).2.start_lt_stop
  inside s hs := (h.covers s hs).2.stop_le_length
  boundaries s hs := (h.covers s hs).2.boundaries
  opener s hs := (h.covers s hs).2.slice
  closed := h.stops.1
  last := h.stops.2
  complete first hf _ hi := h.complete (Nat.le_trans (h.covers first (List.mem_of_head? hf)).1 hi)

/-- The spans of a text are none exactly if it has no opener free of a dollar sign. Otherwise the first
one starts at the least such opener, and all of them are well placed. -/
theorem spans_wellPlaced (text : String) :
    (spans text = [] ↔ ∀ i, ¬ FreeOpenerAt text i) ∧
    (spans text).head?.map Span.start = start? text ∧
    (∀ n, start? text = some n ↔ FreeOpenerAt text n ∧ ∀ m < n, ¬ FreeOpenerAt text m) ∧
    WellPlaced text (spans text) := by
  obtain ⟨pos, hl, hf⟩ := spans_layout text
  refine ⟨?_, hf, fun n => start?_eq_some_iff, hl.wellPlaced⟩
  rw [← start?_eq_none_iff, ← hf, Option.map_eq_none_iff, List.head?_eq_none_iff]

end HclLiteral.Interpolation
