import HclLiteral.Proofs.Segments
import HclLiteral.Proofs.Utf8
import Mathlib.Data.List.Chain

namespace HclLiteral.Fragment

def letters : List (Char × Char) := ('/', '/') :: Escape.letters

/-- An escape of one letter is shown as its meaning, and all else as it stands. -/
def Shows (source shown : List Char) : Prop :=
  (∃ letter meaning, (letter, meaning) ∈ letters ∧ source = ['\\', letter] ∧ shown = [meaning]) ∨
    (∀ letter meaning, (letter, meaning) ∈ letters → source ≠ ['\\', letter]) ∧ shown = source

def source? (text : String) (f : Fragment) : Option (List Char) :=
  Text.slice? text.toList f.span.start f.span.stop

/-- The letters of escapes with hexadecimal digits, and how many of these each takes at most. -/
def digitLetters : List (Char × Nat) := [('u', 4), ('U', 8), ('X', 2)]

/-- At most so many digits of the base, and as many as there are before `rest`. -/
structure IsDigitRun (base most : Nat) (digits rest : List Char) : Prop where
  digit : ∀ c ∈ digits, ∃ v < base, Numeral.IsDigit c v
  length_le : digits.length ≤ most
  longest : digits.length < most → ∀ c ∈ rest.head?, ∀ v < base, ¬ Numeral.IsDigit c v

/-- What an escape takes behind its backslash when `rest` comes after it. -/
inductive Escaped : List Char → List Char → Prop
  | nothing : Escaped [] []
  | octal {digits rest : List Char} : digits ≠ [] → IsDigitRun 8 3 digits rest → Escaped digits rest
  | hex {letter : Char} {most : Nat} {digits rest : List Char} :
      (letter, most) ∈ digitLetters → IsDigitRun 16 most digits rest → Escaped (letter :: digits) rest
  | letter {letter : Char} {rest : List Char} :
      (∀ v < 8, ¬ Numeral.IsDigit letter v) → (∀ most, (letter, most) ∉ digitLetters) → Escaped [letter] rest

def IsEscape (text : String) (f : Fragment) : Prop :=
  ∃ before source rest, text.toList = before ++ '\\' :: source ++ rest ∧ Text.size before = f.span.start ∧
    f.span.start + Text.size ('\\' :: source) = f.span.stop ∧ Escaped source rest

/-- The fragment starts with an opener that has no dollar sign before it, and runs to the brace that
balances it or to the end of the text. -/
def IsIsland (text : String) (f : Fragment) : Prop :=
  ∃ before source rest, text.toList = before ++ source ++ rest ∧ Text.size before = f.span.start ∧
    f.span.start + Text.size source = f.span.stop ∧ before.getLast? ≠ some '$' ∧
    Braces.IsRegion source rest

def IsPlain (interpolations : Bool) (text : String) (f : Fragment) : Prop :=
  ¬ f.IsEscape text ∧ ¬ (interpolations = true ∧ f.IsIsland text)

def Tiles : Nat → Nat → List Fragment → Prop
  | start, stop, [] => start = stop
  | start, stop, f :: fs => f.span.start = start ∧ start < f.span.stop ∧ Tiles f.span.stop stop fs

structure Sound (interpolations : Bool) (text : String) (f : Fragment) : Prop where
  boundaries : Text.IsBoundary text.toList f.span.start ∧ Text.IsBoundary text.toList f.span.stop
  source : ∃ source, f.source? text = some source ∧ Shows source f.text.toList
  plain : f.IsPlain interpolations text → ∀ source, f.source? text = some source → '\\' ∉ source
  noIsland : f.IsPlain interpolations text → interpolations = true →
    ∀ g : Fragment, g.IsIsland text → ¬ (f.span.start ≤ g.span.start ∧ g.span.start < f.span.stop)

structure Faithful (interpolations : Bool) (text : String) (fs : List Fragment) : Prop where
  sound : ∀ f ∈ fs, f.Sound interpolations text
  apart : fs.IsChain fun f g => ¬ (f.IsPlain interpolations text ∧ g.IsPlain interpolations text)

def contentStart (text : String) : Nat := Text.size (text.toList.take 1)

def contentEnd (text : String) : Nat :=
  if text.toList.getLast? = text.toList.head? then Text.size text.toList.dropLast
  else Text.size text.toList

/-- How the fragments of a quoted literal end: with its content, or with an escape or an island that takes
in the last character of the text. -/
inductive TilesQuoted (interpolations : Bool) (text : String) (fs : List Fragment) : Prop
  | empty : contentEnd text ≤ contentStart text → fs = [] → TilesQuoted interpolations text fs
  | content : Tiles (contentStart text) (contentEnd text) fs → TilesQuoted interpolations text fs
  | beyond {last : Fragment} : fs.getLast? = some last → ¬ last.IsPlain interpolations text →
      Tiles (contentStart text) (Text.size text.toList) fs → TilesQuoted interpolations text fs

variable {interpolations : Bool} {text : String} {s : Segment} {segs : List Segment}
  {front rest tail : List Char}

lemma letter?_eq_some_iff {letter meaning : Char} :
    letter? letter = some meaning ↔ (letter, meaning) ∈ letters := by
  unfold letter? letters
  rw [List.mem_cons, ← Escape.simple?_eq_some_iff]
  split
  · rename_i h
    subst h
    simp [Escape.simple?, eq_comm]
  · simp_all

lemma escapeLength_letter {letter meaning : Char} (h : (letter, meaning) ∈ letters) (cs : List Char) :
    escapeLength (letter :: cs) = 1 := by
  have key : ∀ e ∈ letters,
      Numeral.isOctalDigit e.1 = false ∧ e.1 ≠ 'u' ∧ e.1 ≠ 'U' ∧ e.1 ≠ 'X' := by decide
  obtain ⟨ho, hu, hU, hX⟩ := key _ h
  simp only at ho hu hU hX
  simp [escapeLength, ho, hu, hU, hX]

lemma shows_escape {cs source shown : List Char} (h : escape cs = .escape source shown) :
    Shows source shown := by
  unfold escape at h
  cases cs with
  | nil =>
    cases h
    exact Or.inr ⟨by simp, rfl⟩
  | cons c cs =>
    rw [List.head?_cons, Option.bind_some] at h
    cases hm : letter? c with
    | some meaning =>
      have hc := letter?_eq_some_iff.mp hm
      simp only [hm, escapeLength_letter hc] at h
      cases h
      exact Or.inl ⟨c, meaning, hc, rfl, rfl⟩
    | none =>
      simp only [hm] at h
      cases h
      refine Or.inr ⟨?_, rfl⟩
      intro letter meaning hl he
      obtain ⟨-, he⟩ := List.cons.inj he
      cases hn : escapeLength (c :: cs) with
      | zero => simp [hn] at he
      | succ n =>
        rw [hn, List.take_succ_cons] at he
        obtain ⟨rfl, -⟩ := List.cons.inj he
        rw [letter?_eq_some_iff.mpr hl] at hm
        cases hm

lemma isDigitRun_takeWhile {base : Nat} {p : Char → Bool}
    (hp : ∀ {c}, p c = true ↔ ∃ v < base, Numeral.IsDigit c v) (most : Nat) (cs : List Char) :
    IsDigitRun base most ((cs.take most).takeWhile p) (cs.drop ((cs.take most).takeWhile p).length) where
  digit c hc := hp.mp (List.mem_takeWhile_imp hc)
  length_le := (List.takeWhile_prefix p).length_le.trans (List.length_take_le most cs)
  longest := by
    induction cs generalizing most with
    | nil => simp
    | cons c cs ih =>
      cases most with
      | zero => simp
      | succ most =>
        rw [List.take_succ_cons, List.takeWhile_cons]
        split
        · rw [List.length_cons, List.drop_succ_cons]
          intro hlt
          exact ih most (Nat.lt_of_succ_lt_succ hlt)
        · rename_i hc
          rintro - d hd v hv hdigit
          obtain rfl := Option.some.inj hd
          exact hc (hp.mpr ⟨v, hv, hdigit⟩)

lemma escaped_escapeLength (cs : List Char) :
    Escaped (cs.take (escapeLength cs)) (cs.drop (escapeLength cs)) := by
  cases cs with
  | nil => exact .nothing
  | cons c cs =>
    have hhex {letter : Char} {most : Nat} (h : (letter, most) ∈ digitLetters) :
        Escaped ((letter :: cs).take (1 + escapeLength.hexRun most cs))
          ((letter :: cs).drop (1 + escapeLength.hexRun most cs)) := by
      have hrun : cs.take (escapeLength.hexRun most cs) = (cs.take most).takeWhile Numeral.isHexDigit :=
        (List.prefix_iff_eq_take.mp ((List.takeWhile_prefix _).trans (List.take_prefix _ _))).symm
      rw [Nat.add_comm, List.take_succ_cons, List.drop_succ_cons, hrun]
      exact .hex h (isDigitRun_takeWhile Numeral.isHexDigit_iff most cs)
    rw [escapeLength]
    split_ifs with ho hu hU hX
    · rw [← List.prefix_iff_eq_take.mp ((List.takeWhile_prefix _).trans (List.take_prefix _ _))]
      refine .octal ?_ (isDigitRun_takeWhile Numeral.isOctalDigit_iff 3 (c :: cs))
      rw [List.take_succ_cons, List.takeWhile_cons_of_pos ho]
      exact List.cons_ne_nil _ _
    · exact hu ▸ hhex (by decide)
    · exact hU ▸ hhex (by decide)
    · exact hX ▸ hhex (by decide)
    · refine .letter ?_ ?_
      · intro v hv hd
        exact ho (Numeral.isOctalDigit_iff.mpr ⟨v, hv, hd⟩)
      · simp [digitLetters, hu, hU, hX]

lemma escaped_of_escape {source rest shown : List Char}
    (h : escape (source ++ rest) = .escape ('\\' :: source) shown) : Escaped source rest := by
  have hs := congrArg Segment.source h
  rw [escape_source] at hs
  obtain ⟨-, htake⟩ := List.cons.inj hs
  have hcut := List.take_append_drop (escapeLength (source ++ rest)) (source ++ rest)
  have he := escaped_escapeLength (source ++ rest)
  rw [htake] at hcut he
  rwa [List.append_cancel_left hcut] at he

lemma shows_self {source : List Char} (h : source.head? ≠ some '\\') : Shows source source := by
  refine Or.inr ⟨?_, rfl⟩
  rintro letter meaning - rfl
  exact h rfl

lemma exists_append_of_size_le {front back before after : List Char} (h : front ++ back = before ++ after)
    (hle : Text.size front ≤ Text.size before) : ∃ inner, before = front ++ inner ∧ back = inner ++ after := by
  rcases List.append_eq_append_iff.mp h with hsplit | ⟨inner, rfl, hback⟩
  · exact hsplit
  · rw [Text.size_append] at hle
    obtain rfl := Text.eq_nil_of_size_eq_zero (Nat.le_zero.mp (Nat.le_of_add_le_add_left (c := 0) hle))
    exact ⟨[], by simp, hback.symm⟩

lemma IsRun.getLast?_of_opens {run inner more : List Char} (h : IsRun true front.getLast? run rest)
    (hrun : run ++ rest = inner ++ more) (hlt : Text.size inner < Text.size run)
    (ho : Braces.opens more = true) : (front ++ inner).getLast? = some '$' := by
  induction run generalizing front inner with
  | nil => exact absurd hlt (Nat.not_lt_zero _)
  | cons c run ih =>
    cases inner with
    | nil =>
      subst hrun
      by_contra hd
      rw [List.append_nil] at hd
      exact (special?_eq_none_iff.mp h.1).2 ⟨rfl, ho, hd⟩
    | cons d inner =>
      obtain ⟨rfl, htail⟩ := List.cons.inj hrun
      rw [Text.size_cons, Text.size_cons] at hlt
      rw [List.append_cons]
      exact ih (by simpa using h.2) htail (Nat.lt_of_add_lt_add_left hlt)

namespace IsSegment

lemma source?_eq (ht : text.toList = front ++ s.source ++ rest) (shown : String) :
    source? text ⟨⟨Text.size front, Text.size front + Text.size s.source⟩, shown⟩ = some s.source := by
  rw [source?, ht]
  exact Text.slice?_append front s.source rest

lemma shows (h : IsSegment interpolations front.getLast? s rest) : Shows s.source s.shown := by
  cases h with
  | @plain run _ hr hrun =>
    apply shows_self
    intro hh
    exact hrun.backslash_not_mem (List.mem_of_head? hh)
  | escape he => exact shows_escape he
  | island _ _ hr =>
    apply shows_self
    obtain ⟨inner, hi⟩ := Braces.opens_iff.mp hr.opens
    simp [Segment.source, hi]

lemma not_isPlain (h : IsSegment interpolations front.getLast? s rest)
    (ht : text.toList = front ++ s.source ++ rest) (hs : ¬ s.IsPlain) (shown : String) :
    ¬ Fragment.IsPlain interpolations text
      ⟨⟨Text.size front, Text.size front + Text.size s.source⟩, shown⟩ := by
  rintro ⟨he, hi⟩
  cases h with
  | plain => exact hs trivial
  | escape h => exact he ⟨front, _, rest, ht, rfl, rfl, escaped_of_escape h⟩
  | island hint hb hr => exact hi ⟨hint, front, _, rest, ht, rfl, rfl, hb, hr⟩

lemma sound (h : IsSegment interpolations front.getLast? s rest)
    (ht : text.toList = front ++ s.source ++ rest) :
    Sound interpolations text
      ⟨⟨Text.size front, Text.size front + Text.size s.source⟩, String.ofList s.shown⟩ where
  boundaries := by
    rw [Text.isBoundary_iff, Text.isBoundary_iff]
    refine ⟨⟨front, s.source ++ rest, ?_, rfl⟩, ⟨front ++ s.source, rest, ht, by simp⟩⟩
    rw [ht, List.append_assoc]
  source := ⟨s.source, source?_eq ht _, by rw [String.toList_ofList]; exact h.shows⟩
  plain := by
    intro hp source hsource
    obtain rfl := Option.some.inj ((source?_eq ht _).symm.trans hsource)
    cases h with
    | plain _ hrun => exact hrun.backslash_not_mem
    | escape he => exact absurd hp (not_isPlain (.escape he) ht id _)
    | island hi hb hr => exact absurd hp (not_isPlain (.island hi hb hr) ht id _)
  noIsland := by
    rintro hp hi g ⟨before, source, after, hg, hstart, -, hb, hr⟩ ⟨hle, hlt⟩
    rw [← hstart] at hle hlt
    cases h with
    | plain _ hrun =>
      -- the island's opener is in the run, where openers stand only behind dollar signs
      subst hi
      rw [ht, List.append_assoc, List.append_assoc] at hg
      obtain ⟨inner, rfl, hinner⟩ := exists_append_of_size_le hg hle
      rw [Text.size_append] at hlt
      exact hb (hrun.getLast?_of_opens hinner (Nat.lt_of_add_lt_add_left hlt) (Braces.opens_append hr.opens after))
    | escape he => exact absurd hp (not_isPlain (.escape he) ht id _)
    | island hi hb hr => exact absurd hp (not_isPlain (.island hi hb hr) ht id _)

end IsSegment

lemma tiles_place (start : Nat) (h : ∀ s ∈ segs, s.source ≠ []) :
    Tiles start (start + Text.size (segs.flatMap Segment.source)) (place start segs) := by
  induction segs generalizing start with
  | nil => rfl
  | cons s segs ih =>
    rw [List.forall_mem_cons] at h
    refine ⟨rfl, ?_, ?_⟩
    · have := mt Text.eq_nil_of_size_eq_zero h.1
      simp only
      omega
    · rw [List.flatMap_cons, Text.size_append, ← Nat.add_assoc]
      exact ih _ h.2

lemma place_append (start : Nat) (segs more : List Segment) :
    place start (segs ++ more) =
      place start segs ++ place (start + Text.size (segs.flatMap Segment.source)) more := by
  induction segs generalizing start with
  | nil => rfl
  | cons s segs ih =>
    rw [List.cons_append, place, ih, place, List.flatMap_cons, Text.size_append, ← Nat.add_assoc]
    rfl

lemma exists_of_place_eq {start : Nat} {fs gs : List Fragment} {f : Fragment}
    (h : place start segs = fs ++ f :: gs) :
    ∃ front s back, segs = front ++ s :: back ∧ front.length = fs.length ∧
      f = ⟨⟨start + Text.size (front.flatMap Segment.source),
        start + Text.size (front.flatMap Segment.source) + Text.size s.source⟩,
          String.ofList s.shown⟩ := by
  induction fs generalizing start segs with
  | nil =>
    cases segs with
    | nil => cases h
    | cons s segs =>
      obtain ⟨rfl, -⟩ := List.cons.inj h
      exact ⟨[], s, segs, rfl, rfl, rfl⟩
  | cons g fs ih =>
    cases segs with
    | nil => cases h
    | cons t segs =>
      obtain ⟨front, s, back, rfl, hl, rfl⟩ := ih (List.cons.inj h).2
      refine ⟨t :: front, s, back, rfl, congrArg (· + 1) hl, ?_⟩
      rw [List.flatMap_cons, Text.size_append, Nat.add_assoc]

lemma getLast?_append_source (h : IsSegment interpolations front.getLast? s rest) :
    (front ++ s.source).getLast? = s.source.getLast? :=
  List.getLast?_append_of_ne_nil front h.source_ne_nil

namespace Laid

lemma faithful (front : List Char) (h : Laid interpolations tail front.getLast? segs)
    (ht : text.toList = front ++ segs.flatMap Segment.source ++ tail) :
    Faithful interpolations text (place (Text.size front) segs) := by
  induction segs generalizing front with
  | nil => exact ⟨by simp [place], .nil⟩
  | cons s segs ih =>
    cases h with
    | cons hs hn hl =>
      have hsource : text.toList = front ++ s.source ++ (segs.flatMap Segment.source ++ tail) := by
        simp [ht]
      rw [← getLast?_append_source hs] at hl
      have hrest := ih (front ++ s.source) hl (by simp [ht])
      rw [Text.size_append] at hrest
      refine ⟨List.forall_mem_cons.mpr ⟨hs.sound hsource, hrest.sound⟩, hrest.apart.cons ?_⟩
      rintro g hg ⟨hf, hgp⟩
      have hp : s.IsPlain := by
        by_contra hp
        exact hs.not_isPlain hsource hp _ hf
      cases hl with
      | nil => simp [place] at hg
      | @cons _ t segs hseg _ _ =>
        obtain rfl := Option.some.inj hg
        rw [← Text.size_append] at hgp
        exact hseg.not_isPlain (by simp [ht]) (hn hp t rfl) _ hgp

lemma getLast?_not_isPlain (front : List Char) (h : Laid interpolations tail front.getLast? segs)
    (ht : text.toList = front ++ segs.flatMap Segment.source ++ tail)
    (hs : segs.getLast? = some s) (hp : ¬ s.IsPlain) :
    ∃ last, (place (Text.size front) segs).getLast? = some last ∧
      ¬ last.IsPlain interpolations text := by
  induction segs generalizing front with
  | nil => cases hs
  | cons t segs ih =>
    cases h with
    | cons ht' _ hl =>
      cases hl with
      | nil =>
        obtain rfl := Option.some.inj hs
        exact ⟨_, rfl, ht'.not_isPlain (by simpa using ht) hp _⟩
      | @cons _ u segs hu hn hl =>
        rw [← getLast?_append_source ht'] at hu
        have := ih (front ++ t.source) (.cons hu hn hl) (by simp [ht]) hs
        rwa [Text.size_append] at this

end Laid

lemma dropQuote_eq_nil_iff {quote : Char} :
    dropQuote quote segs = [] ↔ segs = [] ∨ segs = [.plain [quote]] := by
  fun_cases dropQuote quote segs with
  | case1 => simp
  | case2 run hq hr =>
    obtain ⟨front, rfl⟩ := List.getLast?_eq_some_iff.mp hq
    simp_all
  | case3 run hq hr =>
    obtain ⟨front, rfl⟩ := List.getLast?_eq_some_iff.mp hq
    simp_all
  | case4 run hq =>
    simp only [List.cons_ne_nil, false_or, false_iff]
    rintro h
    simp_all
  | case5 s rest hne =>
    simp only [List.cons_ne_nil, false_or, false_iff]
    rintro h
    obtain ⟨rfl, rfl⟩ := List.cons.inj h
    exact hne _ rfl rfl

lemma segments_eq_nil_iff {before : Option Char} {cs : List Char} :
    segments interpolations before cs = [] ↔ cs = [] := by
  constructor
  · intro h
    rw [← flatMap_source_segments interpolations before cs, h]
    rfl
  · rintro rfl
    rw [segments]

lemma segments_eq_plain_iff {before : Option Char} {c : Char} {cs : List Char} :
    segments interpolations before cs = [.plain [c]] ↔ cs = [c] ∧ c ≠ '\\' := by
  constructor
  · intro h
    have hl := laid_segments interpolations before cs
    have hs := flatMap_source_segments interpolations before cs
    rw [h] at hl hs
    refine ⟨hs.symm, ?_⟩
    cases hl with
    | cons hseg _ _ =>
      cases hseg with
      | plain _ hrun => simpa [eq_comm] using hrun.backslash_not_mem
  · rintro ⟨rfl, hc⟩
    have hn : special? interpolations before c [] = none := by
      simp [special?_eq_none_iff, hc, Braces.opens]
    rw [segments]
    split
    · rename_i h
      rw [hn] at h
      cases h
    · rw [segments]
      rfl

lemma ofText_bare (interpolations : Bool) (text : String) :
    ofText interpolations false text = place 0 (segments interpolations none text.toList) := rfl

lemma ofText_quoted {quote : Char} {cs : List Char} (ht : text.toList = quote :: cs) :
    ofText interpolations true text =
      place (Text.size [quote]) (dropQuote quote (segments interpolations (some quote) cs)) := by
  simp [ofText, ofQuoted, ht]

lemma place_eq_nil_iff {start : Nat} : place start segs = [] ↔ segs = [] := by
  cases segs <;> simp [place]

lemma contentStart_eq {quote : Char} {cs : List Char} (ht : text.toList = quote :: cs) :
    contentStart text = Text.size [quote] := by
  simp [contentStart, ht]

namespace Laid

variable {quote : Char}

lemma tilesQuoted_closed (h : Laid interpolations [quote] (some quote) segs)
    (ht : text.toList = [quote] ++ segs.flatMap Segment.source ++ [quote]) :
    TilesQuoted interpolations text (place (Text.size [quote]) segs) := by
  have hend : contentEnd text = Text.size ([quote] ++ segs.flatMap Segment.source) := by
    rw [contentEnd, ht, List.getLast?_concat, if_pos (by simp), List.dropLast_concat]
  have htiles := tiles_place (Text.size [quote]) h.source_ne_nil
  rw [← Text.size_append, ← hend] at htiles
  apply TilesQuoted.content
  rwa [contentStart_eq ht]

lemma tilesQuoted_open (h : Laid interpolations [] (some quote) segs)
    (ht : text.toList = [quote] ++ segs.flatMap Segment.source)
    (hlast : ∀ run, segs.getLast? = some (.plain run) → run.getLast? ≠ some quote) :
    TilesQuoted interpolations text (place (Text.size [quote]) segs) := by
  have htiles := tiles_place (Text.size [quote]) h.source_ne_nil
  rw [← Text.size_append, ← ht] at htiles
  cases hl : segs.getLast? with
  | none =>
    obtain rfl := List.getLast?_eq_none_iff.mp hl
    apply TilesQuoted.empty _ rfl
    simp [contentEnd, ht]
  | some s =>
    by_cases hp : s.IsPlain
    · obtain ⟨run, rfl⟩ : ∃ run, s = .plain run := by
        cases s with
        | plain run => exact ⟨run, rfl⟩
        | escape | island => cases hp
      obtain ⟨init, rfl⟩ := List.getLast?_eq_some_iff.mp hl
      have hn : run ≠ [] := h.source_ne_nil (.plain run) (by simp)
      have hend : contentEnd text = Text.size text.toList := by
        apply if_neg
        simp only [ht, List.flatMap_append, List.flatMap_singleton, Segment.source, ← List.append_assoc]
        rw [List.getLast?_append_of_ne_nil _ hn]
        exact hlast run hl
      rw [← hend] at htiles
      apply TilesQuoted.content
      rwa [contentStart_eq ht]
    · obtain ⟨last, hlast, hn⟩ := h.getLast?_not_isPlain [quote] (by simpa using ht) hl hp
      apply TilesQuoted.beyond hlast hn
      rwa [contentStart_eq ht]

end Laid

lemma tilesQuoted_ofText (interpolations : Bool) (text : String) :
    TilesQuoted interpolations text (ofText interpolations true text) ∧
      Faithful interpolations text (ofText interpolations true text) := by
  cases ht : text.toList with
  | nil =>
    have hnil : ofText interpolations true text = [] := by simp [ofText, ofQuoted, ht]
    rw [hnil]
    exact ⟨.empty (by simp [contentEnd, ht]) rfl, by simp, .nil⟩
  | cons quote cs =>
    have hsegs := laid_segments interpolations (some quote) cs
    have hsource := flatMap_source_segments interpolations (some quote) cs
    obtain ⟨tail, htail, hlaid, hend⟩ := hsegs.dropQuote quote
    rw [hsource] at htail
    have htext : text.toList = [quote] ++
        (dropQuote quote (segments interpolations (some quote) cs)).flatMap Segment.source ++ tail := by
      rw [List.append_assoc, htail]
      exact ht
    rw [ofText_quoted ht]
    refine ⟨?_, hlaid.faithful [quote] htext⟩
    rcases hend with rfl | ⟨rfl, he, hlast⟩
    · exact hlaid.tilesQuoted_closed htext
    · rw [List.append_nil] at htext
      rw [he] at hlaid htext ⊢
      exact hlaid.tilesQuoted_open htext hlast

lemma ofText_quoted_eq_nil_iff (interpolations : Bool) (text : String) :
    ofText interpolations true text = [] ↔
      text.toList.length ≤ 1 ∨ ∃ quote, quote ≠ '\\' ∧ text.toList = [quote, quote] := by
  cases ht : text.toList with
  | nil => simp [ofText, ofQuoted, ht]
  | cons quote cs =>
    rw [ofText_quoted ht, place_eq_nil_iff, dropQuote_eq_nil_iff, segments_eq_nil_iff,
      segments_eq_plain_iff]
    constructor
    · rintro (rfl | ⟨rfl, hq⟩)
      · exact Or.inl (Nat.le_refl 1)
      · exact Or.inr ⟨quote, hq, rfl⟩
    · rintro (hlen | ⟨q, hq, he⟩)
      · exact Or.inl (List.length_eq_zero_iff.mp (Nat.le_zero.mp (Nat.le_of_succ_le_succ hlen)))
      · obtain ⟨rfl, rfl⟩ := List.cons.inj he
        exact Or.inr ⟨rfl, hq⟩

/-- The fragments of a literal stand one after the other, from its start to its end, or in its quotes.
Only an escape or an island goes beyond the content of a quoted literal, the lone backslash behind another
one included. -/
theorem fragments_tile_literal (interpolations : Bool) (text : String) :
    (Tiles 0 (Text.size text.toList) (ofText interpolations false text) ∧
      (ofText interpolations false text = [] ↔ text = "") ∧
      Faithful interpolations text (ofText interpolations false text)) ∧
    TilesQuoted interpolations text (ofText interpolations true text) ∧
      (ofText interpolations true text = [] ↔
        text.toList.length ≤ 1 ∨ ∃ quote, quote ≠ '\\' ∧ text.toList = [quote, quote]) ∧
      Faithful interpolations text (ofText interpolations true text) := by
  have hlaid := laid_segments interpolations none text.toList
  have hsource := flatMap_source_segments interpolations none text.toList
  obtain ⟨hquoted, hfaithful⟩ := tilesQuoted_ofText interpolations text
  refine ⟨⟨?_, ?_, ?_⟩, hquoted, ofText_quoted_eq_nil_iff interpolations text, hfaithful⟩
  · have htiles := tiles_place 0 hlaid.source_ne_nil
    rwa [hsource, Nat.zero_add] at htiles
  · rw [ofText_bare, place_eq_nil_iff, segments_eq_nil_iff, String.toList_eq_nil_iff]
  · exact hlaid.faithful [] (by simp [hsource])

end HclLiteral.Fragment
