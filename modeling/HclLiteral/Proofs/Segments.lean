import HclLiteral.Fragment
import HclLiteral.Proofs.Decode

namespace HclLiteral

namespace Braces

/-- The characters from an opener to the brace that balances it, or to the end of the text if none does.
What comes after them is `rest`. -/
inductive IsRegion : List Char → List Char → Prop
  | closed {inner rest : List Char} :
      Within 0 inner → inner.count '}' = inner.count '{' → IsRegion ('$' :: '{' :: inner ++ ['}']) rest
  | unclosed {inner : List Char} : Within 0 inner → IsRegion ('$' :: '{' :: inner) []

lemma opens_iff {cs : List Char} : opens cs = true ↔ ∃ rest, cs = '$' :: '{' :: rest := by
  match cs with
  | [] => simp [opens]
  | [c] => simp [opens]
  | c :: d :: cs => simp [opens]

lemma opens_append {cs : List Char} (h : opens cs = true) (ds : List Char) : opens (cs ++ ds) = true := by
  obtain ⟨rest, rfl⟩ := opens_iff.mp h
  rfl

lemma exists_isRegion {cs : List Char} (h : opens cs = true) :
    ∃ rest, region cs ++ rest = cs ∧ IsRegion (region cs) rest := by
  obtain ⟨inner, rfl⟩ := opens_iff.mp h
  rcases within_or_balanced 0 inner with hw | ⟨inner, rest, rfl, hw, hc⟩
  · refine ⟨[], ?_⟩
    rw [region_of_within hw]
    exact ⟨List.append_nil _, .unclosed hw⟩
  · refine ⟨rest, ?_⟩
    rw [← List.cons_append, ← List.cons_append, region_of_balanced rest hw hc]
    exact ⟨by simp, .closed hw hc⟩

lemma IsRegion.region_eq {source rest : List Char} (h : IsRegion source rest) :
    region (source ++ rest) = source := by
  cases h with
  | @closed inner rest hw hc =>
    have := region_of_balanced rest hw hc
    simpa using this
  | unclosed hw => rw [List.append_nil, region_of_within hw]

lemma IsRegion.opens {source rest : List Char} (h : IsRegion source rest) : opens source = true := by
  cases h <;> rfl

lemma IsRegion.source_ne_nil {source rest : List Char} (h : IsRegion source rest) : source ≠ [] := by
  cases h <;> simp

end Braces

namespace Fragment

def Segment.IsPlain : Segment → Prop
  | plain _ => True
  | escape _ _ | island _ => False

/-- Plain text with `rest` after it: neither an escape nor an island starts at any of its characters. -/
def IsRun (interpolations : Bool) : Option Char → List Char → List Char → Prop
  | _, [], _ => True
  | before, c :: run, rest =>
    special? interpolations before c (run ++ rest) = none ∧ IsRun interpolations (some c) run rest

inductive IsSegment (interpolations : Bool) (before : Option Char) : Segment → List Char → Prop
  | plain {run rest : List Char} :
      run ≠ [] → IsRun interpolations before run rest → IsSegment interpolations before (.plain run) rest
  | escape {source shown rest : List Char} :
      Fragment.escape (source ++ rest) = .escape ('\\' :: source) shown →
      IsSegment interpolations before (.escape ('\\' :: source) shown) rest
  | island {source rest : List Char} :
      interpolations = true → before ≠ some '$' → Braces.IsRegion source rest →
      IsSegment interpolations before (.island source) rest

inductive Laid (interpolations : Bool) (tail : List Char) : Option Char → List Segment → Prop
  | nil {before : Option Char} : Laid interpolations tail before []
  | cons {before : Option Char} {s : Segment} {segs : List Segment} :
      IsSegment interpolations before s (segs.flatMap Segment.source ++ tail) →
      (s.IsPlain → ∀ t ∈ segs.head?, ¬ t.IsPlain) →
      Laid interpolations tail s.source.getLast? segs → Laid interpolations tail before (s :: segs)

variable {interpolations : Bool} {before : Option Char} {s : Segment} {segs : List Segment}
  {run rest more tail : List Char}

lemma special?_eq_none_iff {c : Char} {cs : List Char} :
    special? interpolations before c cs = none ↔
      c ≠ '\\' ∧ ¬ (interpolations = true ∧ Braces.opens (c :: cs) = true ∧ before ≠ some '$') := by
  unfold special?
  split <;> rename_i h <;> simp_all

lemma not_opens_of_special? {c : Char} {cs : List Char} (h : special? interpolations before c cs = none)
    (hd : interpolations = true → ¬ ['$', '$', '{'] <:+: before.toList ++ c :: cs) :
    ¬ (interpolations = true ∧ Braces.opens (c :: cs) = true) := by
  rintro ⟨hi, ho⟩
  apply (special?_eq_none_iff.mp h).2
  refine ⟨hi, ho, ?_⟩
  rintro rfl
  obtain ⟨rest, hr⟩ := Braces.opens_iff.mp ho
  apply hd hi
  rw [hr]
  exact ⟨[], rest, rfl⟩

lemma getLast?_append_suffix (cs rest : List Char) : cs.getLast?.toList ++ rest <:+ cs ++ rest := by
  refine ⟨cs.dropLast, ?_⟩
  cases h : cs.getLast? with
  | none => simp [List.getLast?_eq_none_iff.mp h]
  | some c =>
    obtain ⟨front, rfl⟩ := List.getLast?_eq_some_iff.mp h
    simp

lemma escape_source (cs : List Char) : (escape cs).source = '\\' :: cs.take (escapeLength cs) := by
  unfold escape
  cases cs.head?.bind letter? with
  | none => rfl
  | some meaning => rfl

lemma exists_escape (cs : List Char) :
    ∃ source shown rest, source ++ rest = cs ∧ escape cs = .escape ('\\' :: source) shown := by
  have hs := List.take_append_drop (escapeLength cs) cs
  unfold escape
  cases cs.head?.bind letter? with
  | none => exact ⟨_, _, _, hs, rfl⟩
  | some meaning => exact ⟨_, _, _, hs, rfl⟩

lemma special?_eq_some {c : Char} {cs : List Char} (h : special? interpolations before c cs = some s) :
    ∃ rest, s.source ++ rest = c :: cs ∧ IsSegment interpolations before s rest ∧ ¬ s.IsPlain := by
  unfold special? at h
  split at h
  · rename_i ho
    cases h
    simp only [Bool.and_eq_true, bne_iff_ne] at ho
    obtain ⟨rest, hr, hregion⟩ := Braces.exists_isRegion ho.1.2
    exact ⟨rest, hr, .island ho.1.1 ho.2 hregion, id⟩
  · split at h
    · rename_i hc
      cases h
      subst hc
      obtain ⟨source, shown, rest, rfl, he⟩ := exists_escape cs
      rw [he]
      exact ⟨rest, rfl, .escape he, id⟩
    · cases h

namespace IsRun

lemma backslash_not_mem (h : IsRun interpolations before run rest) : '\\' ∉ run := by
  induction run generalizing before with
  | nil => simp
  | cons c run ih =>
    have hc := (special?_eq_none_iff.mp h.1).1
    simp only [List.mem_cons, not_or]
    exact ⟨hc.symm, ih h.2⟩

lemma front (h : IsRun interpolations before (run ++ more) rest) :
    IsRun interpolations before run (more ++ rest) := by
  induction run generalizing before with
  | nil => trivial
  | cons c run ih =>
    rw [List.cons_append] at h
    refine ⟨?_, ih h.2⟩
    rw [← List.append_assoc]
    exact h.1

end IsRun

lemma IsSegment.source_ne_nil (h : IsSegment interpolations before s rest) : s.source ≠ [] := by
  cases h with
  | plain hn _ => exact hn
  | escape => exact List.cons_ne_nil _ _
  | island _ _ hr => exact hr.source_ne_nil

lemma Laid.source_ne_nil (h : Laid interpolations tail before segs) : ∀ s ∈ segs, s.source ≠ [] := by
  induction h with
  | nil => simp
  | cons hs _ _ ih => exact List.forall_mem_cons.mpr ⟨hs.source_ne_nil, ih⟩

lemma flatMap_source_consPlain (c : Char) (segs : List Segment) :
    (Segment.consPlain c segs).flatMap Segment.source = c :: segs.flatMap Segment.source := by
  unfold Segment.consPlain
  split <;> simp [Segment.source]

lemma flatMap_source_segments (interpolations : Bool) (before : Option Char) (cs : List Char) :
    (segments interpolations before cs).flatMap Segment.source = cs := by
  fun_induction segments interpolations before cs with
  | case1 => rfl
  | case2 before c cs s h ih =>
    obtain ⟨rest, hr, -⟩ := special?_eq_some h
    rw [List.flatMap_cons, ih, ← hr, List.drop_left]
  | case3 before c cs h ih => rw [flatMap_source_consPlain, ih]

lemma Laid.consPlain {c : Char} (h : Laid interpolations [] (some c) segs)
    (hc : special? interpolations before c (segs.flatMap Segment.source) = none) :
    Laid interpolations [] before (Segment.consPlain c segs) := by
  have hone : Laid interpolations [] (some c) segs → (∀ t ∈ segs.head?, ¬ t.IsPlain) →
      Laid interpolations [] before (.plain [c] :: segs) := by
    intro h hn
    refine .cons (.plain (List.cons_ne_nil _ _) ⟨?_, trivial⟩) (fun _ => hn) h
    simpa using hc
  cases h with
  | nil => exact hone .nil (by simp)
  | @cons _ s segs hs hn hl =>
    cases hs with
    | plain hr hrun =>
      refine .cons (.plain (List.cons_ne_nil _ _) ⟨?_, hrun⟩) (fun _ => hn trivial) ?_
      · simpa [Segment.source] using hc
      · rwa [Segment.source, List.getLast?_cons_of_ne_nil hr]
    | escape he => exact hone (.cons (.escape he) hn hl) (by simp [Segment.IsPlain])
    | island hi hb hr => exact hone (.cons (.island hi hb hr) hn hl) (by simp [Segment.IsPlain])

lemma laid_segments (interpolations : Bool) (before : Option Char) (cs : List Char) :
    Laid interpolations [] before (segments interpolations before cs) := by
  fun_induction segments interpolations before cs with
  | case1 => exact .nil
  | case2 before c cs s h ih =>
    obtain ⟨rest, hr, hs, hn⟩ := special?_eq_some h
    refine .cons ?_ (fun hp => absurd hp hn) ih
    rwa [flatMap_source_segments, List.append_nil, ← hr, List.drop_left]
  | case3 before c cs h ih =>
    apply ih.consPlain
    rwa [flatMap_source_segments]

lemma head?_dropQuote (quote : Char) (h : ∀ s ∈ segs.head?, ¬ s.IsPlain) :
    (dropQuote quote segs).head? = segs.head? := by
  fun_cases dropQuote quote segs with
  | case1 => rfl
  | case2 run => exact absurd trivial (h (.plain run) rfl)
  | case3 run => exact absurd trivial (h (.plain run) rfl)
  | case4 => rfl
  | case5 => rfl

lemma Laid.dropQuote (h : Laid interpolations [] before segs) (quote : Char) :
    ∃ tail, (dropQuote quote segs).flatMap Segment.source ++ tail = segs.flatMap Segment.source ∧
      Laid interpolations tail before (dropQuote quote segs) ∧
      (tail = [quote] ∨ tail = [] ∧ dropQuote quote segs = segs ∧
        ∀ run, segs.getLast? = some (.plain run) → run.getLast? ≠ some quote) := by
  fun_induction Fragment.dropQuote quote segs generalizing before with
  | case1 => exact ⟨[], rfl, .nil, Or.inr ⟨rfl, rfl, by simp⟩⟩
  | case2 run hq hr =>
    obtain ⟨front, rfl⟩ := List.getLast?_eq_some_iff.mp hq
    rw [List.dropLast_concat] at hr
    subst hr
    exact ⟨[quote], rfl, .nil, Or.inl rfl⟩
  | case3 run hq hr =>
    obtain ⟨front, rfl⟩ := List.getLast?_eq_some_iff.mp hq
    rw [List.dropLast_concat] at hr ⊢
    refine ⟨[quote], by simp [Segment.source], ?_, Or.inl rfl⟩
    cases h with
    | cons hs _ _ =>
      cases hs with
      | plain _ hrun => exact .cons (.plain hr hrun.front) (by simp) .nil
  | case4 run hq => exact ⟨[], by simp, h, Or.inr ⟨rfl, rfl, by simpa using hq⟩⟩
  | case5 s rest hne ih =>
    cases h with
    | cons hs hn hl =>
      obtain ⟨tail, hsource, hlaid, hend⟩ := ih hl
      refine ⟨tail, ?_, .cons ?_ ?_ hlaid, ?_⟩
      · rw [List.flatMap_cons, List.append_assoc, hsource, List.flatMap_cons]
      · rwa [hsource, ← List.append_nil (rest.flatMap Segment.source)]
      · intro hp
        rw [head?_dropQuote quote (hn hp)]
        exact hn hp
      · rcases hend with ht | ⟨ht, he, hlast⟩
        · exact Or.inl ht
        · refine Or.inr ⟨ht, by rw [he], ?_⟩
          cases rest with
          | nil =>
            rintro run hs
            exact (hne run (Option.some.inj hs) rfl).elim
          | cons t rest => exact hlast

end Fragment

end HclLiteral
