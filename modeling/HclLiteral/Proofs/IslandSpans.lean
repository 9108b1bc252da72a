import HclLiteral.Proofs.FragmentTiling
import HclLiteral.Proofs.HeredocLines
import Mathlib.Data.List.ModifyLast

/-! Islands and interpolations. Islands are found by counting braces alone, interpolations by a scanner
that reads strings in them. The two agree on text without quotes, and so do the places of a string literal
and the spans of the text between its quotes. -/

namespace HclLiteral

namespace Quoted

lemma run_within {n : Nat} {inner : List Char} (hw : Braces.Within n inner) (hq : '"' ∉ inner)
    (bs : List UInt8) :
    run [.interpolation n] (Text.encode inner ++ bs) =
      (run [.interpolation (n + inner.count '{' - inner.count '}')] bs).map
        (· + Text.size inner) := by
  induction inner generalizing n with
  | nil => simp
  | cons c inner ih =>
    rw [List.mem_cons, not_or] at hq
    rw [Text.encode_cons, List.append_assoc, run_encodeChar, Text.size_cons]
    have hadd (frames : List Frame) :
        ((run frames bs).map (· + Text.size inner)).map (· + c.utf8Size) =
          (run frames bs).map (· + (c.utf8Size + Text.size inner)) := by
      rw [Option.map_map]
      congr 1
      funext m
      simp only [Function.comp_apply]
      omega
    have hc := Mark.ofChar_spec c
    cases hm : Mark.ofChar c <;> rw [hm] at hc
    case leftBrace =>
      subst hc
      have hn : n + ('{' :: inner).count '{' - ('{' :: inner).count '}' =
          n + 1 + inner.count '{' - inner.count '}' := by simp; omega
      rw [hn, ← hadd, ← ih (Braces.within_left.mp hw) hq.2]
      rfl
    case rightBrace =>
      subst hc
      obtain ⟨m, rfl, hm⟩ := Braces.within_right.mp hw
      have hn : m + 1 + ('}' :: inner).count '{' - ('}' :: inner).count '}' =
          m + inner.count '{' - inner.count '}' := by simp; omega
      rw [hn, ← hadd, ← ih hm hq.2]
      rfl
    case quote => exact absurd hc.symm hq.1
    case dollar | backslash =>
      subst hc
      rw [List.count_cons_of_ne (by decide), List.count_cons_of_ne (by decide), ← hadd,
        ← ih ((Braces.within_other (by decide) (by decide)).mp hw) hq.2]
      rfl
    case plain =>
      obtain ⟨-, hl, hr, -⟩ := hc
      rw [List.count_cons_of_ne hl, List.count_cons_of_ne hr, ← hadd,
        ← ih ((Braces.within_other hl hr).mp hw) hq.2]
      rfl

lemma run_of_balanced {inner : List Char} (hw : Braces.Within 0 inner)
    (hc : inner.count '}' = inner.count '{') (hq : '"' ∉ inner) (bs : List UInt8) :
    run [.interpolation 0] (Text.encode inner ++ 0x7D :: bs) = some (Text.size inner + 1) := by
  have hbrace : run [.interpolation 0] (0x7D :: bs) = some 1 :=
    congrArg (Option.map (· + 1)) (run_nil bs)
  rw [run_within hw hq, hc, Nat.add_sub_cancel, hbrace, Option.map_some, Nat.add_comm]

lemma run_of_within {inner : List Char} (hw : Braces.Within 0 inner) (hq : '"' ∉ inner) :
    run [.interpolation 0] (Text.encode inner) = none := by
  rw [← List.append_nil (Text.encode inner), run_within hw hq]
  rfl

lemma run_append_quote {frames : List Frame} {bs : List UInt8} (hg : Grounded frames)
    (h : run frames bs = none) : run frames (bs ++ [0x22]) = none := by
  induction bs generalizing frames with
  | nil =>
    obtain ⟨above, braces, rfl⟩ := hg
    cases above with
    | nil => rfl
    | cons frame above =>
      rw [List.nil_append, List.cons_append, run, step_append]
      cases step above frame (Mark.ofByte 0x22) <;> rfl
  | cons b bs ih =>
    cases frames with
    | nil => cases h
    | cons frame below =>
      have hn : run (step below frame (Mark.ofByte b)) bs = none := Option.map_eq_none_iff.mp h
      rw [List.cons_append, run]
      rcases step_grounded hg (Mark.ofByte b) with hs | hs
      · rw [hs, run_nil] at hn
        cases hn
      · rw [ih hs hn]
        rfl

lemma run_of_within_quote {inner : List Char} (hw : Braces.Within 0 inner)
    (hq : ∀ front back, inner = front ++ '"' :: back → back = []) :
    run [.interpolation 0] (Text.encode inner) = none := by
  by_cases hm : '"' ∈ inner
  · obtain ⟨front, back, rfl, hf⟩ := List.eq_append_cons_of_mem hm
    obtain rfl := hq front back rfl
    rw [Text.encode_append]
    apply run_append_quote ⟨[], 0, rfl⟩
    exact run_of_within (fun part hp => hw part (hp.trans (List.prefix_append _ _))) hf
  · exact run_of_within hw hm

end Quoted

namespace Interpolation

variable {pos : Nat} {bs : List UInt8} {as : List Attempt}

namespace Scanned

lemma skip_bytes {front : List UInt8}
    (ho : ∀ n < front.length, opens ((front ++ bs).drop n) = false)
    (h : Scanned (pos + front.length) bs as) : Scanned pos (front ++ bs) as := by
  induction front generalizing pos with
  | nil => exact h
  | cons b front ih =>
    refine .skip (ho 0 (Nat.succ_pos _)) (ih ?_ ?_)
    · intro n hn
      exact ho (n + 1) (Nat.succ_lt_succ hn)
    · rwa [Nat.add_assoc, Nat.add_comm 1]

lemma skip_char {c : Char} {cs : List Char} (ho : Braces.opens (c :: cs) = false)
    (h : Scanned (pos + c.utf8Size) (Text.encode cs) as) : Scanned pos (Text.encode (c :: cs)) as := by
  rw [← String.length_utf8EncodeChar] at h
  rw [Text.encode_cons]
  refine skip_bytes ?_ h
  intro n hn
  rw [← Text.encode_cons, Bool.eq_false_iff]
  intro hd
  -- an opener inside the character would have to start the text
  obtain ⟨before, rest, he, rfl⟩ := exists_of_opens_drop hd
  cases before with
  | nil =>
    rw [he] at ho
    cases ho
  | cons d before =>
    obtain ⟨rfl, -⟩ := List.cons.inj he
    rw [String.length_utf8EncodeChar, Text.size_cons] at hn
    omega

lemma skip_chars {cs rest : List Char} (hd : '$' ∉ cs)
    (h : Scanned (pos + Text.size cs) (Text.encode rest) as) :
    Scanned pos (Text.encode (cs ++ rest)) as := by
  induction cs generalizing pos with
  | nil => exact h
  | cons c cs ih =>
    rw [List.mem_cons, not_or] at hd
    rw [Text.size_cons, ← Nat.add_assoc] at h
    refine skip_char ?_ (ih hd.2 h)
    rw [Bool.eq_false_iff]
    intro ho
    obtain ⟨rest, he⟩ := Braces.opens_iff.mp ho
    exact hd.1 (List.cons.inj he).1.symm

end Scanned

def Attempt.extend : Attempt → Attempt
  | closed span => closed span
  | unterminated span => unterminated ⟨span.start, span.stop + 1⟩
  | exhausted => exhausted
  | resync offset => resync offset

lemma Scanned.append_quote (h : Scanned pos bs as) :
    Scanned pos (bs ++ [0x22]) (as.map Attempt.extend) := by
  induction h with
  | done pos => exact .skip rfl (.done _)
  | skip ho _ ih => exact .skip (opens_append_cons ho (by simp)) ih
  | closed hr _ ih =>
    rw [List.cons_append, List.cons_append]
    refine .closed (Quoted.run_append_right hr [0x22]) ?_
    rw [List.drop_append_of_le_length (Quoted.run_le hr)]
    exact ih
  | @unterminated pos bs hr =>
    have hstop : pos + (bs.length + 2) + 1 = pos + ((bs ++ [0x22]).length + 2) := by simp; omega
    change Scanned pos _ [.unterminated ⟨pos, pos + (bs.length + 2) + 1⟩]
    rw [hstop]
    exact .unterminated (Quoted.run_append_quote ⟨[], 0, rfl⟩ hr)

lemma size_opener (cs : List Char) : Text.size ('$' :: '{' :: cs) = Text.size cs + 2 := by
  rw [Text.size_cons, Text.size_cons]
  change 1 + (1 + Text.size cs) = _
  omega

lemma exists_attempt_of_isRegion {source rest : List Char} (h : Braces.IsRegion source rest)
    (hq : ∀ front back, source = front ++ '"' :: back → back = [])
    (hs : Scanned (pos + Text.size source) (Text.encode rest) as) :
    ∃ a, a.span? = some ⟨pos, pos + Text.size source⟩ ∧
      Scanned pos (Text.encode (source ++ rest)) (a :: as) := by
  cases h with
  | @closed inner _ hw hc =>
    have hm : '"' ∉ inner := by
      intro hm
      obtain ⟨front, back, rfl⟩ := List.append_of_mem hm
      have := hq ('$' :: '{' :: front) (back ++ ['}']) (by simp)
      simp at this
    have hbytes : Text.encode ('$' :: '{' :: inner ++ ['}'] ++ rest) =
        0x24 :: 0x7B :: (Text.encode inner ++ 0x7D :: Text.encode rest) := by
      rw [Text.encode_append, Text.encode_append, List.append_assoc]
      rfl
    have hsize : pos + Text.size ('$' :: '{' :: inner ++ ['}']) = pos + 2 + (Text.size inner + 1) := by
      rw [List.cons_append, List.cons_append, size_opener, Text.size_append]
      change pos + (Text.size inner + 1 + 2) = _
      omega
    have hdrop : (Text.encode inner ++ 0x7D :: Text.encode rest).drop (Text.size inner + 1) =
        Text.encode rest := by
      rw [← Text.length_encode, ← List.drop_drop, List.drop_left]
      rfl
    rw [hsize] at hs ⊢
    rw [← hdrop] at hs
    rw [hbytes]
    exact ⟨_, rfl, .closed (Quoted.run_of_balanced hw hc hm _) hs⟩
  | @unclosed inner hw =>
    obtain rfl := hs.eq_nil
    have hrun := Quoted.run_of_within_quote hw fun front back he =>
      hq ('$' :: '{' :: front) back (by rw [he]; rfl)
    rw [size_opener, ← Text.length_encode, List.append_nil]
    exact ⟨_, rfl, .unterminated hrun⟩

end Interpolation

namespace Fragment

open Interpolation

/-- Characters behind `before` with no quote but at their end, no dollar sign behind a backslash and no
escaped opener. -/
structure Clear (before : Option Char) (cs : List Char) : Prop where
  quote : ∀ front back, cs = front ++ '"' :: back → back = []
  escape : ¬ ['\\', '$'] <:+: cs
  opener : ¬ ['$', '$', '{'] <:+: before.toList ++ cs

variable {before : Option Char} {s : Segment} {segs : List Segment} {cs run rest tail : List Char}
  {pos : Nat} {as : List Attempt}

namespace Clear

lemma after (h : Clear before (cs ++ rest)) : Clear cs.getLast? rest where
  quote front back he := h.quote (cs ++ front) back (by rw [he, List.append_assoc])
  escape hin := h.escape (hin.trans (List.suffix_append _ _).isInfix)
  opener hin := by
    have hs := (getLast?_append_suffix cs rest).trans (List.suffix_append before.toList _)
    exact h.opener (hin.trans hs.isInfix)

lemma front (h : Clear before (cs ++ rest)) : Clear none cs where
  quote front back he := by
    have hb := h.quote front (back ++ rest) (by rw [he]; simp)
    exact (List.append_eq_nil_iff.mp hb).1
  escape hin := h.escape (hin.trans (List.prefix_append _ _).isInfix)
  opener hin := by
    apply h.opener
    exact (hin.trans (List.prefix_append _ _).isInfix).trans (List.suffix_append _ _).isInfix

end Clear

lemma IsRun.scanned (h : IsRun true before run rest) (hc : Clear before (run ++ rest))
    (hs : Scanned (pos + Text.size run) (Text.encode rest) as) :
    Scanned pos (Text.encode (run ++ rest)) as := by
  induction run generalizing before pos with
  | nil => exact hs
  | cons c run ih =>
    rw [Text.size_cons, ← Nat.add_assoc] at hs
    have ho : Braces.opens (c :: (run ++ rest)) = false := by
      rw [Bool.eq_false_iff]
      exact fun ho => not_opens_of_special? h.1 (fun _ => hc.opener) ⟨rfl, ho⟩
    have hafter : Clear (some c) (run ++ rest) :=
      Clear.after (show Clear before ([c] ++ (run ++ rest)) from hc)
    exact .skip_char ho (ih h.2 hafter hs)

lemma IsRun.opens_eq_false (h : IsRun true before run rest) (hc : Clear before (run ++ rest)) :
    Braces.opens run = false := by
  cases run with
  | nil => rfl
  | cons c run =>
    rw [Bool.eq_false_iff]
    intro ho
    exact not_opens_of_special? h.1 (fun _ => hc.opener) ⟨rfl, Braces.opens_append ho rest⟩

lemma take_takeWhile_take (p : Char → Bool) (cs : List Char) (n : Nat) :
    cs.take ((cs.take n).takeWhile p).length = (cs.take n).takeWhile p := by
  obtain ⟨rest, hr, -⟩ := Escape.exists_takeWhile_take p cs n
  nth_rewrite 2 [hr]
  rw [List.take_left]

lemma dollar_not_mem_escape (hd : cs.head? ≠ some '$') : '$' ∉ cs.take (escapeLength cs) := by
  have hhex (n : Nat) (ds : List Char) : '$' ∉ ds.take (escapeLength.hexRun n ds) := by
    rw [escapeLength.hexRun, take_takeWhile_take]
    intro hm
    have := List.mem_takeWhile_imp hm
    cases this
  cases cs with
  | nil => simp
  | cons c cs =>
    have hc : '$' ≠ c := by
      rintro rfl
      exact hd rfl
    rw [escapeLength]
    split
    · rw [take_takeWhile_take]
      intro hm
      have := List.mem_takeWhile_imp hm
      cases this
    · repeat' split
      all_goals simp [Nat.add_comm 1, hc, hhex]

lemma opens_shown_escape {source shown : List Char}
    (h : Fragment.escape cs = .escape ('\\' :: source) shown) : Braces.opens shown = false := by
  rcases shows_escape h with ⟨letter, meaning, -, -, rfl⟩ | ⟨-, rfl⟩
  · rfl
  · cases source <;> rfl

lemma IsSegment.skips_or_island (h : IsSegment true before s rest) (hc : Clear before (s.source ++ rest)) :
    (Braces.opens s.shown = false ∧ ∀ pos as, Scanned (pos + Text.size s.source) (Text.encode rest) as →
        Scanned pos (Text.encode (s.source ++ rest)) as) ∨
      ∃ source, s = .island source ∧ Braces.IsRegion source rest := by
  cases h with
  | plain _ hrun => exact Or.inl ⟨hrun.opens_eq_false hc, fun pos as => hrun.scanned hc⟩
  | @escape source shown _ he =>
    refine Or.inl ⟨opens_shown_escape he, fun pos as => .skip_chars ?_⟩
    have hsource := escape_source (source ++ rest)
    rw [he] at hsource
    have hd : '$' ∉ (source ++ rest).take (escapeLength (source ++ rest)) := by
      apply dollar_not_mem_escape
      intro hh
      obtain ⟨back, hb⟩ := List.head?_eq_some_iff.mp hh
      apply hc.escape
      rw [Segment.source, List.cons_append, hb]
      exact ⟨[], back, rfl⟩
    rw [hsource]
    simp [hd]
  | island _ _ hr => exact Or.inr ⟨_, rfl, hr⟩

lemma opensInterpolation_ofList (span : Span) (shown : List Char) :
    opensInterpolation ⟨span, String.ofList shown⟩ = Braces.opens shown := by
  rw [opensInterpolation, String.toList_ofList]

lemma Laid.scanned (h : Laid true tail before segs)
    (hc : Clear before (segs.flatMap Segment.source ++ tail))
    (ht : ∀ pos, Scanned pos (Text.encode tail) []) (pos : Nat) :
    ∃ as, Scanned pos (Text.encode (segs.flatMap Segment.source ++ tail)) as ∧
      as.filterMap Attempt.span? = ((place pos segs).filter opensInterpolation).map Fragment.span := by
  induction h generalizing pos with
  | nil => exact ⟨[], ht pos, rfl⟩
  | @cons before s segs hs _ _ ih =>
    rw [List.flatMap_cons, List.append_assoc] at hc ⊢
    obtain ⟨as, has, hspans⟩ := ih hc.after (pos + Text.size s.source)
    rcases hs.skips_or_island hc with ⟨ho, hskip⟩ | ⟨source, rfl, hr⟩
    · refine ⟨as, hskip pos as has, ?_⟩
      rw [hspans, place, List.filter_cons_of_neg]
      rw [opensInterpolation_ofList, ho]
      exact Bool.false_ne_true
    · obtain ⟨a, ha, hscan⟩ := exists_attempt_of_isRegion hr hc.front.quote has
      refine ⟨a :: as, hscan, ?_⟩
      rw [List.filterMap_cons_some ha, hspans, place, List.filter_cons_of_pos, List.map_cons]
      · rfl
      · rw [opensInterpolation_ofList]
        exact hr.opens

lemma spans_island {source : List Char} (h : Braces.IsRegion source rest) (hc : Clear none source) :
    spans (String.ofList source) = [⟨0, Text.size source⟩] := by
  have hb : Text.bytes (String.ofList source) = Text.encode source := by
    rw [Text.bytes, String.toList_ofList]
  have halone : Braces.IsRegion source [] := by
    cases h with
    | closed hw hcount => exact .closed hw hcount
    | unclosed hw => exact .unclosed hw
  obtain ⟨a, ha, hs⟩ := exists_attempt_of_isRegion halone hc.quote (.done (0 + Text.size source))
  rw [List.append_nil] at hs
  have hall := scanned_attempts (Text.isTail_encode source) (mt Text.infix_of_infix_encode hc.opener)
  rw [spans_eq_filterMap, hb, hall.unique hs, List.filterMap_cons_some ha, Nat.zero_add]
  rfl

lemma Laid.spans_shown (pos : Nat) (h : Laid true tail before segs)
    (hc : Clear before (segs.flatMap Segment.source ++ tail))
    (hm : pos + Text.size (segs.flatMap Segment.source) ≤ Offset.max) :
    ∀ f ∈ place pos segs, f.opensInterpolation = true →
      (spans f.text).map (·.shiftRight f.span.start) = [f.span] := by
  induction h generalizing pos with
  | nil => simp [place]
  | @cons before s segs hs _ _ ih =>
    rw [List.flatMap_cons, List.append_assoc] at hc
    rw [List.flatMap_cons, Text.size_append, ← Nat.add_assoc] at hm
    rw [place, List.forall_mem_cons]
    refine ⟨?_, ih _ hc.after hm⟩
    intro ho
    rw [opensInterpolation_ofList] at ho
    rcases hs.skips_or_island hc with ⟨hn, -⟩ | ⟨source, rfl, hr⟩
    · cases ho.symm.trans hn
    · simp only [Segment.source] at hm
      simp only [Segment.shown, Segment.source, spans_island hr hc.front, List.map_singleton]
      rw [Span.shiftRight_eq (by simp only; omega) (by simp only; omega), Nat.zero_add, Nat.add_comm]

end Fragment

namespace Interpolation

open Fragment

lemma infix_of_infix_quote {word body : List Char} (h : word <:+: body ++ ['"'])
    (hw : word.getLast? ≠ some '"') : word <:+: body := by
  rcases List.infix_concat_iff.mp h with hs | hi
  · rcases List.suffix_concat_iff.mp hs with rfl | ⟨front, rfl, -⟩
    · exact List.nil_infix
    · exact absurd List.getLast?_concat hw
  · exact hi

lemma clear_of_not_mem {body : List Char} (hq : '"' ∉ body) (he : ¬ ['\\', '$'] <:+: body)
    (hd : ¬ ['$', '$', '{'] <:+: body) : Clear none body where
  quote front back h := absurd (by rw [h]; simp) hq
  escape := he
  opener := hd

lemma clear_of_quote {body : List Char} (hq : '"' ∉ body) (he : ¬ ['\\', '$'] <:+: body)
    (hd : ¬ ['$', '$', '{'] <:+: body) : Clear (some '"') (body ++ ['"']) where
  quote front back h := by
    rcases List.eq_nil_or_concat back with rfl | ⟨init, last, rfl⟩
    · rfl
    · rw [List.concat_eq_append, ← List.cons_append, ← List.append_assoc] at h
      obtain ⟨rfl, -⟩ := List.append_inj' h rfl
      simp at hq
  escape h := he (infix_of_infix_quote h (by decide))
  opener h := by
    rcases List.infix_cons_iff.mp h with hp | hi
    · cases (List.cons_prefix_cons.mp hp).1
    · exact hd (infix_of_infix_quote hi (by decide))

lemma scanned_fragmentPlaces {text : String} {body : List Char}
    (ht : text.toList = '"' :: (body ++ ['"'])) (hc : Clear (some '"') (body ++ ['"']))
    (hl : Text.size body + 2 ≤ Offset.max) :
    ∃ as, Scanned 1 (Text.encode (body ++ ['"'])) as ∧ fragmentPlaces text = as.filterMap Attempt.span? := by
  have hlaid := laid_segments true (some '"') (body ++ ['"'])
  obtain ⟨tail, hsource, hquoted, htail⟩ := hlaid.dropQuote '"'
  rw [flatMap_source_segments] at hsource
  rw [← hsource] at hc
  have hnone : ∀ pos, Scanned pos (Text.encode tail) [] := by
    intro pos
    rcases htail with rfl | ⟨rfl, -⟩
    · exact .skip rfl (.done _)
    · exact .done pos
  have hsize := congrArg Text.size hsource
  have hquote : Text.size ['"'] = 1 := rfl
  simp only [Text.size_append, hquote] at hsize
  obtain ⟨as, has, hspans⟩ := hquoted.scanned hc hnone 1
  rw [hsource] at has
  refine ⟨as, has, ?_⟩
  rw [fragmentPlaces, ofText_quoted ht, hspans, List.map_eq_flatMap]
  apply List.flatMap_congr
  intro f hf
  obtain ⟨hmem, ho⟩ := List.mem_filter.mp hf
  exact hquoted.spans_shown 1 hc (by omega) f hmem ho

lemma opens_quote (bs : List UInt8) : opens (0x22 :: bs) = false := by
  cases bs <;> rfl

lemma scanned_stringPlaces {text : String} {body : List Char}
    (ht : text.toList = '"' :: (body ++ ['"'])) (hc : Clear (some '"') (body ++ ['"']))
    (hl : Text.size body + 2 ≤ Offset.max) :
    ∃ as, Scanned 1 (Text.encode (body ++ ['"'])) as ∧ stringPlaces text = as.filterMap Attempt.span? := by
  obtain ⟨as, has, hp⟩ := scanned_fragmentPlaces ht hc hl
  refine ⟨as, has, ?_⟩
  rw [stringPlaces, ← hp]
  split
  · rename_i ho
    -- the quick look for an opener spares only a search that finds nothing
    have hbytes : Text.bytes text = 0x22 :: Text.encode (body ++ ['"']) := by rw [Text.bytes, ht]; rfl
    rw [hbytes] at ho
    have hnil := (scanned_of_opener?_none ho 0).of_skip (opens_quote _)
    rw [hp, has.unique hnil]
    rfl
  · rfl

/-- The spans of a text between quotes: they lie one byte to the right, and the last one takes in the
closing quote if its attempt came to the end of the text. -/
def quotedSpans (text : String) : List Span :=
  match (attempts none (Text.bytes text)).getLast? with
  | some (.unterminated _) =>
    ((spans text).map (·.shiftRight 1)).modifyLast fun last => ⟨last.start, last.stop + 1⟩
  | _ => (spans text).map (·.shiftRight 1)

lemma quotedSpans_eq {text : String} (h : Scanned 0 (Text.bytes text) (attempts none (Text.bytes text))) :
    quotedSpans text =
      (((attempts none (Text.bytes text)).map (·.shiftRight 1)).map Attempt.extend).filterMap
        Attempt.span? := by
  obtain ⟨found, rest, he, hrest⟩ := h.settled
  rw [quotedSpans, spans_eq_filterMap, map_shiftRight_filterMap, he]
  have hshift : (found.map Attempt.closed).map (·.shiftRight 1) =
      (found.map (·.shiftRight 1)).map Attempt.closed := by simp [Attempt.shiftRight]
  have hextend (spans : List Span) :
      (spans.map Attempt.closed).map Attempt.extend = spans.map Attempt.closed := by
    simp [Attempt.extend]
  rcases hrest with rfl | ⟨span, rfl⟩
  · rw [List.append_nil, hshift, hextend, filterMap_span?_closed, List.getLast?_map]
    cases found.getLast? <;> rfl
  · rw [List.getLast?_concat, List.map_append, hshift, List.map_append, hextend, List.filterMap_append,
      List.filterMap_append, filterMap_span?_closed]
    exact List.modifyLast_concat _ _ _

/-- In a text without quotes, without a dollar sign behind a backslash and without an escaped opener, the
islands are the spans of a scan, and the places of the text between quotes are these spans moved. -/
theorem islands_eq_spans_of_no_quote (body : String) (hl : (Text.bytes body).length + 2 < 2 ^ 32)
    (hq : '"' ∉ body.toList) (he : ¬ ['\\', '$'] <:+: body.toList)
    (hd : ¬ ['$', '$', '{'] <:+: body.toList) :
    ((Fragment.ofText true false body).filter Fragment.opensInterpolation).map Fragment.span = spans body ∧
    ∀ file : HostFile, file.interpolates = true →
      places file (.string ("\"" ++ body ++ "\"")) = quotedSpans body := by
  have hall := scanned_attempts (Text.isTail_bytes body) (mt Text.infix_of_infix_encode hd)
  constructor
  · have hc := clear_of_not_mem hq he hd
    have hsource := flatMap_source_segments true none body.toList
    rw [← hsource, ← List.append_nil (List.flatMap _ _)] at hc
    obtain ⟨as, has, hspans⟩ := (laid_segments true none body.toList).scanned hc .done 0
    rw [List.append_nil, hsource] at has
    rw [ofText_bare, ← hspans, spans_eq_filterMap, has.unique hall]
  · intro file hf
    have ht : ("\"" ++ body ++ "\"").toList = '"' :: (body.toList ++ ['"']) := by
      rw [String.toList_append, String.toList_append]
      rfl
    have hsize : Text.size body.toList + 2 ≤ Offset.max := by
      rw [← Text.length_encode]
      exact Nat.le_of_lt_succ hl
    -- one scan behind the opening quote, reached from the fragments and from the scan of the body
    obtain ⟨as, has, hp⟩ := scanned_stringPlaces ht (clear_of_quote hq he hd) hsize
    have hshift := (hall.shift (n := 1) (by rw [Text.bytes, Text.length_encode]; omega)).append_quote
    rw [Text.encode_append] at has
    rw [places, if_pos hf, hp, quotedSpans_eq hall, has.unique hshift]

theorem islands_of_stray_braces :
    ((Fragment.ofText true false "é\\n$ \x7d$\x7ba\x7bb\x7d\x7d\\477$ $\x7b$\x7bx").filter
        Fragment.opensInterpolation).map Fragment.span = [⟨7, 14⟩, ⟨20, 25⟩] ∧
      places ⟨"main.tf", true⟩ (.string ("\"" ++ "é\\n$ \x7d$\x7ba\x7bb\x7d\x7d\\477$ $\x7b$\x7bx" ++ "\"")) =
        [⟨8, 15⟩, ⟨21, 27⟩] := by
  have hs : spans "é\\n$ \x7d$\x7ba\x7bb\x7d\x7d\\477$ $\x7b$\x7bx" = [⟨7, 14⟩, ⟨20, 25⟩] := by
    decide +kernel
  have hq : quotedSpans "é\\n$ \x7d$\x7ba\x7bb\x7d\x7d\\477$ $\x7b$\x7bx" = [⟨8, 15⟩, ⟨21, 27⟩] := by
    decide +kernel
  obtain ⟨hislands, hplaces⟩ := islands_eq_spans_of_no_quote
    "é\\n$ \x7d$\x7ba\x7bb\x7d\x7d\\477$ $\x7b$\x7bx" (by decide +kernel) (by decide +kernel)
    (by decide +kernel) (by decide +kernel)
  exact ⟨hislands.trans hs, (hplaces ⟨"main.tf", true⟩ (by decide +kernel)).trans hq⟩

end Interpolation

end HclLiteral
