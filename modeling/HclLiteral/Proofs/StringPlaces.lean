import HclLiteral.Proofs.FragmentTiling
import HclLiteral.Proofs.Placement
import Mathlib.Algebra.Group.Nat.Defs

/-! The places of a string literal. Each is found in one fragment whose text starts with an opener, and the
first one there starts with the fragment, whether the fragment is cut too short by its braces or too long. -/

namespace HclLiteral

namespace Fragment

variable {interpolations : Bool} {text : String} {f g : Fragment} {fs : List Fragment} {start stop : Nat}

namespace Tiles

lemma bounds (h : Tiles start stop fs) :
    start ≤ stop ∧ ∀ f ∈ fs, start ≤ f.span.start ∧ f.span.start < f.span.stop ∧ f.span.stop ≤ stop := by
  induction fs generalizing start with
  | nil =>
    obtain rfl : start = stop := h
    exact ⟨Nat.le_refl _, List.forall_mem_nil _⟩
  | cons f fs ih =>
    obtain ⟨rfl, hlt, hrest⟩ := h
    obtain ⟨hle, hall⟩ := ih hrest
    refine ⟨by omega, List.forall_mem_cons.mpr ⟨⟨Nat.le_refl _, hlt, hle⟩, ?_⟩⟩
    intro g hg
    have := hall g hg
    omega

lemma eq_of_within (h : Tiles start stop fs) (hf : f ∈ fs) (hg : g ∈ fs) {s : Span} (hs : s.start < s.stop)
    (hsf : s.IsWithin f.span) (hsg : s.IsWithin g.span) : f = g := by
  induction fs generalizing start with
  | nil => cases hf
  | cons t fs ih =>
    obtain ⟨-, -, hrest⟩ := h
    have hbehind : ∀ u ∈ fs, s.IsWithin t.span → ¬ s.IsWithin u.span := by
      intro u hu hst hsu
      have hstart := (hrest.bounds.2 u hu).1
      simp only [Span.IsWithin] at hst hsu
      omega
    rcases List.mem_cons.mp hf with rfl | hf'
    · rcases List.mem_cons.mp hg with rfl | hg'
      · rfl
      · exact absurd hsg (hbehind g hg' hsf)
    · rcases List.mem_cons.mp hg with rfl | hg'
      · exact absurd hsf (hbehind f hf' hsg)
      · exact ih hrest hf' hg'

end Tiles

lemma Sound.exists_part (h : f.Sound interpolations text) (ho : f.opensInterpolation = true) :
    ∃ before after, text.toList = before ++ f.text.toList ++ after ∧ Text.size before = f.span.start ∧
      f.span.start + Text.size f.text.toList = f.span.stop := by
  obtain ⟨source, hsource, hshows⟩ := h.source
  rcases hshows with ⟨letter, meaning, -, -, hshown⟩ | ⟨-, hshown⟩
  · rw [opensInterpolation, hshown] at ho
    cases ho
  · rw [hshown]
    exact Text.slice?_eq_some_iff.mp hsource

lemma exists_tiles (interpolations : Bool) (text : String) :
    ∃ start stop, Tiles start stop (ofText interpolations true text) := by
  cases (tilesQuoted_ofText interpolations text).1 with
  | empty _ hnil =>
    rw [hnil]
    exact ⟨0, 0, rfl⟩
  | content htiles => exact ⟨_, _, htiles⟩
  | beyond _ _ htiles => exact ⟨_, _, htiles⟩

end Fragment

namespace Interpolation

def placesOf (f : Fragment) : List Span := (spans f.text).map (·.shiftRight f.span.start)

def scannedFragments (text : String) : List Fragment :=
  (Fragment.ofText true true text).filter Fragment.opensInterpolation

variable {text : String} {f : Fragment} {fs : List Fragment} {start stop : Nat}

lemma placedIn_placesOf (h : f.Sound true text) (ho : f.opensInterpolation = true)
    (hl : (Text.bytes text).length ≤ Offset.max) : PlacedIn text f.span (placesOf f) := by
  obtain ⟨before, after, ht, hbefore, hstop⟩ := h.exists_part ho
  have hpart := placedIn_part ht hl
  rwa [hbefore, hstop] at hpart

lemma placedIn_flatMap (h : Fragment.Tiles start stop fs) (hs : ∀ f ∈ fs, f.Sound true text)
    (hl : (Text.bytes text).length ≤ Offset.max) :
    PlacedIn text ⟨start, stop⟩ ((fs.filter Fragment.opensInterpolation).flatMap placesOf) := by
  induction fs generalizing start with
  | nil => exact .nil h.bounds.1
  | cons f fs ih =>
    obtain ⟨rfl, hlt, hrest⟩ := h
    rw [List.forall_mem_cons] at hs
    have htail := ih hrest hs.2
    by_cases ho : f.opensInterpolation = true
    · rw [List.filter_cons_of_pos ho, List.flatMap_cons]
      exact (placedIn_placesOf hs.1 ho hl).append htail
    · rw [List.filter_cons_of_neg ho, ← List.nil_append (List.flatMap _ _)]
      exact (PlacedIn.nil (Nat.le_of_lt hlt)).append htail

lemma exists_first (h : f.Sound true text) (ho : f.opensInterpolation = true)
    (hl : (Text.bytes text).length ≤ Offset.max) : ∃ s ∈ placesOf f, s.start = f.span.start := by
  obtain ⟨before, after, ht, hbefore, hstop⟩ := h.exists_part ho
  have hsmall : 0 + f.span.start ≤ Offset.max := by
    rw [Text.bytes, Text.length_encode, ht, Text.size_append, Text.size_append] at hl
    omega
  have hopener : OpenerAt f.text 0 := by
    obtain ⟨inner, hi⟩ := Braces.opens_iff.mp ho
    rw [OpenerAt, Text.bytes, hi]
    exact ⟨rfl, rfl⟩
  have hstart : start? f.text = some 0 :=
    start?_eq_some_iff.mpr ⟨⟨hopener, Or.inl rfl⟩, fun m hm => absurd hm (Nat.not_lt_zero m)⟩
  obtain ⟨pos, -, hhead⟩ := spans_layout f.text
  rw [hstart] at hhead
  obtain ⟨s, hs, hzero⟩ := Option.map_eq_some_iff.mp hhead
  refine ⟨s.shiftRight f.span.start, List.mem_map_of_mem (List.mem_of_head? hs), ?_⟩
  rw [Span.shiftRight, hzero, Offset.addSaturating_eq hsmall, Nat.zero_add]

lemma Placed.find?_within {found : List Span} (h : Placed text found) {s range : Span} (hs : s ∈ found)
    (hw : s.IsWithin range) (he : s.start = range.start) :
    found.find? (fun t => t.IsWithin range) = some s := by
  apply List.find?_eq_some_iff_append.mpr
  obtain ⟨front, back, rfl⟩ := List.append_of_mem hs
  refine ⟨decide_eq_true hw, front, back, rfl, ?_⟩
  intro t ht
  have hlt := h.nonempty t (List.mem_append_left _ ht)
  have hle := (List.pairwise_append.mp h.ordered).2.2 t ht s List.mem_cons_self
  have hout : ¬ t.IsWithin range := by
    rintro ⟨hstart, -⟩
    omega
  simpa using hout

lemma scannedFragments_eq_nil (h : opener? (Text.bytes text) = none) : scannedFragments text = [] := by
  apply List.filter_eq_nil_iff.mpr
  intro f hf ho
  obtain ⟨before, after, ht, -⟩ := ((Fragment.tilesQuoted_ofText true text).2.sound f hf).exists_part ho
  obtain ⟨inner, hi⟩ := Braces.opens_iff.mp ho
  have hnone := opener?_spec (Text.bytes text)
  rw [h] at hnone
  have hopens : opens ((Text.bytes text).drop (Text.size before)) = true := by
    rw [Text.bytes, ht, hi, List.append_assoc, Text.encode_append, ← Text.length_encode, List.drop_left]
    rfl
  exact Bool.false_ne_true ((hnone _).symm.trans hopens)

lemma stringPlaces_eq (text : String) : stringPlaces text = fragmentPlaces text := by
  unfold stringPlaces
  split
  · rename_i h
    exact (congrArg (List.flatMap placesOf) (scannedFragments_eq_nil h)).symm
  · rfl

/-- The places of a string literal are in order and apart, each within one fragment that is scanned. The first
place within such a fragment starts where the fragment does. -/
theorem string_places_lie_in_fragments (file : HostFile) (text : String)
    (hl : (Text.bytes text).length < 2 ^ 32) (hf : file.interpolates = true) :
    Placed text (places file (.string text)) ∧
    (∀ s ∈ places file (.string text), ∃! f, f ∈ scannedFragments text ∧ s.IsWithin f.span) ∧
    (∀ f ∈ scannedFragments text, ∃ first,
      (places file (.string text)).find? (fun s => s.IsWithin f.span) = some first ∧
        first.start = f.span.start) ∧
    places file (.string text) = fragmentPlaces text := by
  have hmax : (Text.bytes text).length ≤ Offset.max := Nat.le_of_lt_succ hl
  have hplaces : places file (.string text) = fragmentPlaces text := by
    rw [places, if_pos hf]
    exact stringPlaces_eq text
  have hsound := (Fragment.tilesQuoted_ofText true text).2.sound
  obtain ⟨start, stop, htiles⟩ := Fragment.exists_tiles true text
  have hplaced : PlacedIn text ⟨start, stop⟩ (fragmentPlaces text) := placedIn_flatMap htiles hsound hmax
  rw [hplaces]
  refine ⟨hplaced.placed, ?_, ?_, rfl⟩
  · intro s hs
    obtain ⟨f, hf, hsf⟩ := List.mem_flatMap.mp hs
    obtain ⟨hmem, ho⟩ := List.mem_filter.mp hf
    have hwithin := (placedIn_placesOf (hsound f hmem) ho hmax).within s hsf
    refine ⟨f, ⟨hf, hwithin⟩, ?_⟩
    rintro g ⟨hg, hsg⟩
    exact htiles.eq_of_within (List.mem_of_mem_filter hg) hmem (hplaced.placed.nonempty s hs) hsg hwithin
  · intro f hf
    obtain ⟨hmem, ho⟩ := List.mem_filter.mp hf
    obtain ⟨s, hs, hstart⟩ := exists_first (hsound f hmem) ho hmax
    have hwithin := (placedIn_placesOf (hsound f hmem) ho hmax).within s hs
    exact ⟨s, hplaced.placed.find?_within (List.mem_flatMap.mpr ⟨f, hf, hs⟩) hwithin hstart, hstart⟩

theorem string_places_of_uneven_islands :
    places ⟨"main.tf", true⟩ (.string "\"$\x7bf(\"\x7d\")\x7dé$\x7b\"\x7b\"\x7d $\x7bx\x7d\x7d\"") =
        [⟨1, 7⟩, ⟨12, 18⟩, ⟨19, 23⟩] ∧
      Placed "\"$\x7bf(\"\x7d\")\x7dé$\x7b\"\x7b\"\x7d $\x7bx\x7d\x7d\"" [⟨1, 7⟩, ⟨12, 18⟩, ⟨19, 23⟩] ∧
      (∃! f, f ∈ scannedFragments "\"$\x7bf(\"\x7d\")\x7dé$\x7b\"\x7b\"\x7d $\x7bx\x7d\x7d\"" ∧
        Span.IsWithin ⟨19, 23⟩ f.span) ∧
      ⟨⟨12, 24⟩, "$\x7b\"\x7b\"\x7d $\x7bx\x7d\x7d"⟩ ∈
        scannedFragments "\"$\x7bf(\"\x7d\")\x7dé$\x7b\"\x7b\"\x7d $\x7bx\x7d\x7d\"" ∧
      ∃ first, List.find? (fun s : Span => s.IsWithin ⟨12, 24⟩) [⟨1, 7⟩, ⟨12, 18⟩, ⟨19, 23⟩] = some first ∧
        first.start = 12 := by
  have hplaces : places ⟨"main.tf", true⟩
        (.string "\"$\x7bf(\"\x7d\")\x7dé$\x7b\"\x7b\"\x7d $\x7bx\x7d\x7d\"") =
      [⟨1, 7⟩, ⟨12, 18⟩, ⟨19, 23⟩] := by decide +kernel
  have hmem : ⟨⟨12, 24⟩, "$\x7b\"\x7b\"\x7d $\x7bx\x7d\x7d"⟩ ∈
      scannedFragments "\"$\x7bf(\"\x7d\")\x7dé$\x7b\"\x7b\"\x7d $\x7bx\x7d\x7d\"" := by decide +kernel
  obtain ⟨hplaced, hone, hfirst, -⟩ := string_places_lie_in_fragments ⟨"main.tf", true⟩
    "\"$\x7bf(\"\x7d\")\x7dé$\x7b\"\x7b\"\x7d $\x7bx\x7d\x7d\"" (by decide +kernel) (by decide +kernel)
  rw [hplaces] at hplaced hone hfirst
  exact ⟨hplaces, hplaced, hone ⟨19, 23⟩ (by decide), hmem, hfirst _ hmem⟩

end Interpolation

end HclLiteral
