import HclLiteral.Proofs.IslandSpans

/-! The flag of a fragment against the islands of a literal. The flag goes by the first two characters of
the fragment, so it marks every island, and besides only plain text that starts with an opener. Such text
comes behind a dollar sign that is in no plain text itself. -/

namespace HclLiteral

lemma Braces.IsRegion.getLast?_source {source rest : List Char} (h : IsRegion source rest)
    (hr : rest ≠ []) : source.getLast? = some '}' := by
  cases h with
  | closed => exact List.getLast?_concat
  | unclosed => exact absurd rfl hr

namespace Fragment

/-- The fragment starts with an opener behind a dollar sign that is taken: it is the opening quote of the
literal, or the end of an escape. -/
def FollowsTakenDollar (quoted : Bool) (text : String) (f : Fragment) : Prop :=
  ∃ before inner after, text.toList = before ++ '$' :: '{' :: inner ++ after ∧
    Text.size before = f.span.start ∧
    f.span.start + Text.size ('$' :: '{' :: inner) = f.span.stop ∧
    (quoted = true ∧ before = ['$'] ∨
      ∃ front, before = front ++ ['\\', '$'] ∧
        ∃ escape ∈ ofText true quoted text, escape.span = ⟨Text.size front, f.span.start⟩)

variable {interpolations quoted : Bool} {text : String} {f : Fragment} {s t : Segment}
  {segs back : List Segment} {before : Option Char} {front source shown rest tail : List Char}

lemma Laid.segment (h : Laid interpolations tail front.getLast? (segs ++ s :: back)) :
    IsSegment interpolations (front ++ segs.flatMap Segment.source).getLast? s
      (back.flatMap Segment.source ++ tail) := by
  induction segs generalizing front with
  | nil =>
    cases h with
    | cons hs _ _ => simpa using hs
  | cons t segs ih =>
    cases h with
    | cons ht _ hl =>
      rw [← getLast?_append_source ht] at hl
      simpa using ih hl

lemma Laid.not_isPlain_of_isPlain (h : Laid interpolations tail before (segs ++ t :: s :: back))
    (ht : t.IsPlain) : ¬ s.IsPlain := by
  induction segs generalizing before with
  | nil =>
    cases h with
    | cons _ hn _ => exact hn ht s rfl
  | cons u segs ih =>
    cases h with
    | cons _ _ hl => exact ih hl

lemma escape_of_getLast?_dollar (he : escape (source ++ rest) = .escape ('\\' :: source) shown)
    (hd : ('\\' :: source).getLast? = some '$') : source = ['$'] := by
  have hsource : source = (source ++ rest).take (escapeLength (source ++ rest)) := by
    have h := escape_source (source ++ rest)
    rw [he] at h
    exact (List.cons.inj h).2
  have hmem : '$' ∈ source := by
    rcases List.mem_cons.mp (List.mem_of_getLast? hd) with h | h
    · cases h
    · exact h
  have hhead : (source ++ rest).head? = some '$' := by
    by_contra hn
    have := dollar_not_mem_escape hn
    rw [← hsource] at this
    exact this hmem
  obtain ⟨ds, hds⟩ := List.head?_eq_some_iff.mp hhead
  rw [hds] at hsource
  exact hsource

lemma Laid.taken_of_dollar (h : Laid interpolations tail front.getLast? (segs ++ s :: back))
    (hs : s.IsPlain) (hd : (front ++ segs.flatMap Segment.source).getLast? = some '$') :
    segs = [] ∨ ∃ init shown, segs = init ++ [.escape ['\\', '$'] shown] := by
  rcases List.eq_nil_or_concat' segs with rfl | ⟨init, t, rfl⟩
  · exact Or.inl rfl
  right
  have hne := h.segment.source_ne_nil
  rw [List.append_assoc, List.singleton_append] at h
  have ht := h.segment
  have hlast : t.source.getLast? = some '$' := by
    rw [← hd, List.flatMap_append, List.flatMap_singleton, ← List.append_assoc,
      List.getLast?_append_of_ne_nil _ ht.source_ne_nil]
  cases ht with
  | plain => exact absurd hs (h.not_isPlain_of_isPlain trivial)
  | escape he =>
    obtain rfl := escape_of_getLast?_dollar he hlast
    exact ⟨init, _, rfl⟩
  | island _ _ hr =>
    -- an island with something behind it ends with its brace
    have hbrace := hr.getLast?_source (by simp [hne])
    rw [Segment.source, hbrace] at hlast
    cases hlast

lemma exists_laid (interpolations quoted : Bool) (text : String) :
    ∃ front segs tail, text.toList = front ++ segs.flatMap Segment.source ++ tail ∧
      Laid interpolations tail front.getLast? segs ∧
      ofText interpolations quoted text = place (Text.size front) segs ∧
      (front = [] ∨ quoted = true ∧ ∃ quote, front = [quote]) := by
  cases quoted with
  | false =>
    refine ⟨[], _, [], ?_, laid_segments interpolations none text.toList, rfl, Or.inl rfl⟩
    simp [flatMap_source_segments]
  | true =>
    cases ht : text.toList with
    | nil => exact ⟨[], [], [], rfl, .nil, by simp [ofText, ofQuoted, ht, place], Or.inl rfl⟩
    | cons quote cs =>
      obtain ⟨tail, htail, hlaid, -⟩ := (laid_segments interpolations (some quote) cs).dropQuote quote
      rw [flatMap_source_segments] at htail
      refine ⟨[quote], _, tail, ?_, hlaid, ofText_quoted ht, Or.inr ⟨rfl, quote, rfl⟩⟩
      rw [List.append_assoc, htail]
      rfl

lemma not_isIsland_of_dollar (ht : text.toList = front ++ rest) (hf : Text.size front = f.span.start)
    (hd : front.getLast? = some '$') : ¬ f.IsIsland text := by
  rintro ⟨before, source, after, he, hb, -, hn, -⟩
  rw [ht, List.append_assoc] at he
  obtain ⟨rfl, -⟩ := Text.append_inj_of_size he (hf.trans hb.symm)
  exact hn hd

lemma opensInterpolation_of_source? {inner : List Char} (hf : f ∈ ofText interpolations quoted text)
    (hs : f.source? text = some ('$' :: '{' :: inner)) : f.opensInterpolation = true := by
  obtain ⟨front, segs, tail, ht, hlaid, hplace, -⟩ := exists_laid interpolations quoted text
  rw [hplace] at hf
  obtain ⟨source, hsource, hshows⟩ := ((hlaid.faithful front ht).sound f hf).source
  obtain rfl := Option.some.inj (hs.symm.trans hsource)
  rcases hshows with ⟨letter, meaning, -, he, -⟩ | ⟨-, hshown⟩
  · cases (List.cons.inj he).1
  · rw [opensInterpolation, hshown]
    rfl

lemma IsIsland.opensInterpolation (hf : f ∈ ofText interpolations quoted text) (h : f.IsIsland text) :
    f.opensInterpolation = true := by
  obtain ⟨before, source, rest, ht, hb, hs, -, hr⟩ := h
  obtain ⟨inner, rfl⟩ := Braces.opens_iff.mp hr.opens
  exact opensInterpolation_of_source? hf (Text.slice?_eq_some_iff.mpr ⟨before, rest, ht, hb, hs⟩)

namespace FollowsTakenDollar

lemma opensInterpolation (hf : f ∈ ofText true quoted text) (h : f.FollowsTakenDollar quoted text) :
    f.opensInterpolation = true := by
  obtain ⟨before, inner, after, ht, hb, hs, -⟩ := h
  exact opensInterpolation_of_source? hf (Text.slice?_eq_some_iff.mpr ⟨before, after, ht, hb, hs⟩)

lemma not_isIsland (h : f.FollowsTakenDollar quoted text) : ¬ f.IsIsland text := by
  obtain ⟨before, inner, after, ht, hb, -, htaken⟩ := h
  rw [List.append_assoc] at ht
  apply not_isIsland_of_dollar ht hb
  rcases htaken with ⟨-, rfl⟩ | ⟨front, rfl, -⟩
  · rfl
  · simp

lemma infix_or_prefix (h : f.FollowsTakenDollar quoted text) :
    ['\\', '$', '$', '{'] <:+: text.toList ∨ quoted = true ∧ ['$', '$', '{'] <+: text.toList := by
  obtain ⟨before, inner, after, ht, -, -, htaken⟩ := h
  rcases htaken with ⟨hq, rfl⟩ | ⟨front, rfl, -⟩
  · exact Or.inr ⟨hq, inner ++ after, by simp [ht]⟩
  · exact Or.inl ⟨front, inner ++ after, by simp [ht]⟩

end FollowsTakenDollar

lemma isIsland_or_followsTakenDollar (hf : f ∈ ofText true quoted text)
    (ho : f.opensInterpolation = true) : f.IsIsland text ∨ f.FollowsTakenDollar quoted text := by
  obtain ⟨front, all, tail, ht, hlaid, hplace, hquote⟩ := exists_laid true quoted text
  obtain ⟨fs, gs, hfs⟩ := List.append_of_mem (hplace ▸ hf)
  obtain ⟨segs, s, back, rfl, -, rfl⟩ := exists_of_place_eq hfs
  rw [opensInterpolation_ofList] at ho
  have hs := hlaid.segment
  have htext : text.toList =
      front ++ segs.flatMap Segment.source ++ s.source ++ (back.flatMap Segment.source ++ tail) := by
    simp [ht]
  have hsize : Text.size (front ++ segs.flatMap Segment.source) =
      Text.size front + Text.size (segs.flatMap Segment.source) := Text.size_append _ _
  cases hs with
  | escape he =>
    rw [Segment.shown, opens_shown_escape he] at ho
    cases ho
  | island _ hb hr =>
    exact Or.inl ⟨front ++ segs.flatMap Segment.source, _, _, htext, hsize, rfl, hb, hr⟩
  | @plain run _ _ hrun =>
    obtain ⟨inner, rfl⟩ := Braces.opens_iff.mp ho
    -- no island starts at the opener, so a dollar sign comes before it
    have hd : (front ++ segs.flatMap Segment.source).getLast? = some '$' := by
      by_contra hn
      exact (special?_eq_none_iff.mp hrun.1).2 ⟨rfl, rfl, hn⟩
    refine Or.inr ⟨_, inner, _, htext, hsize, rfl, ?_⟩
    rcases hlaid.taken_of_dollar trivial hd with rfl | ⟨init, shown, rfl⟩
    · rcases hquote with rfl | ⟨hq, quote, rfl⟩
      · cases hd
      · obtain rfl := Option.some.inj hd
        exact Or.inl ⟨hq, rfl⟩
    · refine Or.inr ⟨front ++ init.flatMap Segment.source, by simp [Segment.source], ?_⟩
      rw [hplace, List.append_assoc, List.singleton_append, place_append]
      refine ⟨_, List.mem_append_right _ List.mem_cons_self, ?_⟩
      simp [Nat.add_assoc]

/-- The flag marks the islands and the fragments behind a taken dollar sign, which are no islands. -/
theorem flag_marks_islands_or_taken_dollars (quoted : Bool) (text : String) :
    (∀ f ∈ ofText true quoted text,
      (f.opensInterpolation = true ↔ f.IsIsland text ∨ f.FollowsTakenDollar quoted text) ∧
        ¬ (f.IsIsland text ∧ f.FollowsTakenDollar quoted text)) ∧
    (¬ ['\\', '$', '$', '{'] <:+: text.toList → (quoted = true → ¬ ['$', '$', '{'] <+: text.toList) →
      ∀ f ∈ ofText true quoted text, f.opensInterpolation = true ↔ f.IsIsland text) := by
  refine ⟨?_, ?_⟩
  · intro f hf
    refine ⟨⟨isIsland_or_followsTakenDollar hf, ?_⟩, fun h => h.2.not_isIsland h.1⟩
    rintro (h | h)
    · exact h.opensInterpolation hf
    · exact h.opensInterpolation hf
  · intro he hq f hf
    refine ⟨?_, fun h => h.opensInterpolation hf⟩
    intro ho
    rcases isIsland_or_followsTakenDollar hf ho with h | h
    · exact h
    · rcases h.infix_or_prefix with hi | ⟨hquoted, hp⟩
      · exact absurd hi he
      · exact absurd hp (hq hquoted)

theorem flag_marks_both_kinds :
    (⟨⟨3, 8⟩, "$\x7ba\x7d "⟩ ∈ ofText true true "\"\\$$\x7ba\x7d $\x7bb\x7d\"" ∧
      (IsIsland "\"\\$$\x7ba\x7d $\x7bb\x7d\"" ⟨⟨3, 8⟩, "$\x7ba\x7d "⟩ ∨
        FollowsTakenDollar true "\"\\$$\x7ba\x7d $\x7bb\x7d\"" ⟨⟨3, 8⟩, "$\x7ba\x7d "⟩)) ∧
    (¬ ['\\', '$', '$', '{'] <:+: "$$\x7ba\x7d\\n$\x7bb\x7d".toList ∧
      ⟨⟨7, 11⟩, "$\x7bb\x7d"⟩ ∈ ofText true false "$$\x7ba\x7d\\n$\x7bb\x7d" ∧
      IsIsland "$$\x7ba\x7d\\n$\x7bb\x7d" ⟨⟨7, 11⟩, "$\x7bb\x7d"⟩) := by
  have hf : ⟨⟨3, 8⟩, "$\x7ba\x7d "⟩ ∈ ofText true true "\"\\$$\x7ba\x7d $\x7bb\x7d\"" := by decide +kernel
  have hg : ⟨⟨7, 11⟩, "$\x7bb\x7d"⟩ ∈ ofText true false "$$\x7ba\x7d\\n$\x7bb\x7d" := by decide +kernel
  have he : ¬ ['\\', '$', '$', '{'] <:+: "$$\x7ba\x7d\\n$\x7bb\x7d".toList := by decide +kernel
  refine ⟨⟨hf, ?_⟩, he, hg, ?_⟩
  · exact ((flag_marks_islands_or_taken_dollars true _).1 _ hf).1.mp (by decide +kernel)
  · exact ((flag_marks_islands_or_taken_dollars false _).2 he
      (fun hq => absurd hq Bool.false_ne_true) _ hg).mp (by decide +kernel)

theorem flag_marks_text_behind_escaped_dollar :
    ⟨⟨3, 7⟩, "$\x7ba\x7d"⟩ ∈ ofText true true "\"\\$$\x7ba\x7d\"" ∧
      opensInterpolation ⟨⟨3, 7⟩, "$\x7ba\x7d"⟩ = true ∧
      ¬ IsIsland "\"\\$$\x7ba\x7d\"" ⟨⟨3, 7⟩, "$\x7ba\x7d"⟩ := by
  have ht : "\"\\$$\x7ba\x7d\"".toList = ['"', '\\', '$'] ++ ['$', '{', 'a', '}', '"'] := by
    decide +kernel
  exact ⟨by decide +kernel, by decide +kernel, not_isIsland_of_dollar ht rfl rfl⟩

end Fragment

end HclLiteral
