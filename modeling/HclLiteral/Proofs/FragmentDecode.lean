import HclLiteral.Proofs.DecodeCut
import HclLiteral.Proofs.FragmentTiling
import HclLiteral.Proofs.Lossy
import Mathlib.Algebra.Ring.Nat
import Mathlib.Data.List.Forall2

/-! Fragments and decoding cut a literal at the same places. The pieces that decoding reads fall into
groups, one for each fragment, and the groups decode on their own. -/

namespace HclLiteral

namespace Escape

variable {interpolations : Bool}

lemma pieces_cons {c : Char} {cs : List Char} (hc : c ≠ '\\')
    (ho : ¬ (interpolations = true ∧ Braces.opens (c :: cs) = true)) :
    pieces interpolations (c :: cs) = .verbatim [c] :: pieces interpolations cs := by
  have hr : Piece.read interpolations c cs = .verbatim [c] := by
    rw [← Bool.and_eq_true] at ho
    rw [Piece.read, if_neg ho, if_neg hc]
  have hs : (Piece.read interpolations c cs).source ++ cs = c :: cs := by rw [hr]; rfl
  rw [pieces_append_of_read hs, hr]

lemma pieces_octalDigits {digits : List Char} (hd : ∀ c ∈ digits, Numeral.isOctalDigit c = true)
    (rest : List Char) :
    pieces interpolations (digits ++ rest) = (Piece.verbatim digits).atoms ++ pieces interpolations rest := by
  induction digits with
  | nil => rfl
  | cons c digits ih =>
    rw [List.forall_mem_cons] at hd
    have hc : c ≠ '\\' ∧ c ≠ '$' := by
      constructor <;> rintro rfl <;> cases hd.1
    rw [List.cons_append, pieces_cons hc.1, ih hd.2]
    · rfl
    · rw [Piece.opens_cons_iff]
      exact fun h => hc.2 h.2.1

end Escape

namespace Fragment

open Escape

variable {interpolations : Bool} {before : Option Char} {s : Segment} {segs : List Segment}
  {run rest : List Char}

lemma hexRun_append {digits : List Char} (hd : ∀ c ∈ digits, Numeral.isHexDigit c = true)
    (rest : List Char) : escapeLength.hexRun digits.length (digits ++ rest) = digits.length := by
  rw [escapeLength.hexRun, List.take_left, List.takeWhile_eq_self_iff.mpr hd]

lemma exists_spelled {cs : List Char} (hw : ∀ p ∈ pieces interpolations ('\\' :: cs), p.IsWellFormed) :
    ∃ source rest meaning, cs = source ++ rest ∧ Spelled source rest meaning := by
  have hp := hw (Piece.read interpolations '\\' cs) (by rw [pieces]; exact List.mem_cons_self)
  rw [Piece.read_backslash] at hp
  cases hr : Escape.read cs with
  | error fault =>
    rw [hr] at hp
    cases hp
  | ok reading =>
    obtain ⟨source, rest, hcs, -, hs⟩ := spelled_of_read hr
    exact ⟨source, rest, reading.meaning, hcs, hs⟩

/-- A fragment's escape takes the digits of the decoder's one, and maybe an octal digit more. -/
lemma exists_take_escapeLength {source : List Char} {meaning : Char} (h : Spelled source rest meaning)
    (hx : source.head? ≠ some 'x') :
    ∃ more back, more ++ back = rest ∧
      (source ++ rest).take (escapeLength (source ++ rest)) = source ++ more ∧
      ∀ c ∈ more, Numeral.isOctalDigit c = true := by
  cases h with
  | letter hm =>
    have hl := escapeLength_letter (List.mem_cons_of_mem _ hm) rest
    exact ⟨[], rest, rfl, by rw [List.singleton_append, hl]; rfl, by simp⟩
  | octal hn hs hl hr =>
    -- the decoder stops after two digits if the first is above 3, a fragment only after three
    have hd := (Numeral.spells_octal_iff.mp hs).1
    obtain ⟨c, digits, rfl⟩ := List.exists_cons_of_ne_nil hn
    obtain ⟨back, hb, -⟩ := exists_takeWhile_take Numeral.isOctalDigit rest (3 - (c :: digits).length)
    refine ⟨_, back, hb.symm, ?_, fun c hc => List.mem_takeWhile_imp hc⟩
    have hlen : escapeLength (c :: digits ++ rest) =
        (c :: digits ++ (rest.take (3 - (c :: digits).length)).takeWhile Numeral.isOctalDigit).length := by
      rw [List.cons_append, escapeLength, if_pos (hd c List.mem_cons_self), ← List.cons_append,
        List.take_append, List.take_of_length_le (Nat.le_trans hl (octalLimit_le _)),
        List.takeWhile_append_of_pos hd]
    rw [hlen]
    nth_rewrite 2 [hb]
    rw [← List.append_assoc, List.take_left]
  | @hex letter meaning width digits _ hm hl hs =>
    have hd := (Numeral.spells_hex_iff.mp hs).1
    have hlen : escapeLength (letter :: digits ++ rest) = (letter :: digits).length := by
      have hrun := hexRun_append hd rest
      rw [hl] at hrun
      simp only [hexLetters, List.mem_cons, List.not_mem_nil, or_false, Prod.mk.injEq] at hm
      rcases hm with ⟨rfl, rfl⟩ | ⟨rfl, rfl⟩ | ⟨rfl, rfl⟩
      · exact absurd rfl hx
      · rw [List.length_cons, hl, ← hrun, Nat.add_comm]
        rfl
      · rw [List.length_cons, hl, ← hrun, Nat.add_comm]
        rfl
    exact ⟨[], rest, rfl, by rw [hlen, List.take_left, List.append_nil], by simp⟩

lemma IsRun.pieces_append (h : IsRun interpolations before run rest)
    (hd : interpolations = true → ¬ ['$', '$', '{'] <:+: before.toList ++ (run ++ rest)) :
    pieces interpolations (run ++ rest) = (Piece.verbatim run).atoms ++ pieces interpolations rest := by
  induction run generalizing before with
  | nil => rfl
  | cons c run ih =>
    have hc := (special?_eq_none_iff.mp h.1).1
    rw [List.cons_append, pieces_cons hc (not_opens_of_special? h.1 hd), ih h.2]
    · rfl
    · exact fun hi hin => hd hi (hin.trans (List.suffix_append _ _).isInfix)

lemma pieces_island {source : List Char} (h : Braces.IsRegion source rest) :
    pieces true (source ++ rest) = .verbatim source :: pieces true rest := by
  obtain ⟨inner, rfl⟩ := Braces.opens_iff.mp h.opens
  have hread : Piece.read true '$' ('{' :: (inner ++ rest)) = .verbatim ('$' :: '{' :: inner) :=
    congrArg Piece.verbatim h.region_eq
  have hs : (Piece.read true '$' ('{' :: (inner ++ rest))).source ++ rest =
      '$' :: '{' :: (inner ++ rest) := by rw [hread]; rfl
  rw [List.cons_append, List.cons_append, pieces_append_of_read hs, hread]

lemma exists_pieces_escape {source shown : List Char}
    (he : Fragment.escape (source ++ rest) = .escape ('\\' :: source) shown)
    (hw : ∀ p ∈ pieces interpolations ('\\' :: (source ++ rest)), p.IsWellFormed)
    (hx : ¬ ['\\', 'x'] <:+: '\\' :: (source ++ rest)) :
    ∃ units, units.flatMap Piece.source = '\\' :: source ∧
      pieces interpolations ('\\' :: (source ++ rest)) = units ++ pieces interpolations rest := by
  obtain ⟨digits, after, meaning, hcs, hs⟩ := exists_spelled hw
  have hhead : digits.head? ≠ some 'x' := by
    intro hh
    obtain ⟨tail, rfl⟩ := List.head?_eq_some_iff.mp hh
    apply hx
    rw [hcs]
    exact ⟨[], tail ++ after, rfl⟩
  obtain ⟨more, back, rfl, htake, hmore⟩ := exists_take_escapeLength hs hhead
  -- what the fragment takes is the decoder's escape and the digits that it leaves
  have hsource := escape_source (source ++ rest)
  rw [he, hcs, htake] at hsource
  obtain ⟨-, rfl⟩ := List.cons.inj hsource
  rw [List.append_assoc] at hcs ⊢
  obtain rfl := List.append_cancel_left (List.append_cancel_left hcs)
  have hread : Piece.read interpolations '\\' (digits ++ (more ++ rest)) =
      .escape ('\\' :: digits) meaning := (IsUnit.escape hs).read_eq rfl
  have happ : (Piece.read interpolations '\\' (digits ++ (more ++ rest))).source ++ (more ++ rest) =
      '\\' :: (digits ++ (more ++ rest)) := by rw [hread]; rfl
  refine ⟨.escape ('\\' :: digits) meaning :: (Piece.verbatim more).atoms, ?_, ?_⟩
  · rw [List.flatMap_cons, Piece.flatMap_source_atoms]
    rfl
  · rw [pieces_append_of_read happ, hread, pieces_octalDigits hmore]
    rfl

lemma IsSegment.exists_pieces (h : IsSegment interpolations before s rest)
    (hw : ∀ p ∈ pieces interpolations (s.source ++ rest), p.IsWellFormed)
    (hx : ¬ ['\\', 'x'] <:+: s.source ++ rest)
    (hd : interpolations = true → ¬ ['$', '$', '{'] <:+: before.toList ++ (s.source ++ rest)) :
    ∃ units, units.flatMap Piece.source = s.source ∧
      pieces interpolations (s.source ++ rest) = units ++ pieces interpolations rest := by
  cases h with
  | @plain run _ hn hrun =>
    exact ⟨(Piece.verbatim run).atoms, Piece.flatMap_source_atoms _, hrun.pieces_append hd⟩
  | @island source _ hi hb hr =>
    subst hi
    exact ⟨[.verbatim source], List.append_nil source, pieces_island hr⟩
  | escape he => exact exists_pieces_escape he hw hx

lemma Laid.exists_groups (h : Laid interpolations [] before segs)
    (hw : ∀ p ∈ pieces interpolations (segs.flatMap Segment.source), p.IsWellFormed)
    (hx : ¬ ['\\', 'x'] <:+: segs.flatMap Segment.source)
    (hd : interpolations = true → ¬ ['$', '$', '{'] <:+: before.toList ++ segs.flatMap Segment.source) :
    ∃ groups : List (List Piece),
      List.Forall₂ (fun s units => Reads interpolations s.source units) segs groups ∧
      pieces interpolations (segs.flatMap Segment.source) = groups.flatten := by
  induction h with
  | nil =>
    refine ⟨[], .nil, ?_⟩
    rw [List.flatMap_nil, pieces]
    rfl
  | @cons before s segs hs _ _ ih =>
    rw [List.append_nil] at hs
    rw [List.flatMap_cons] at hw hx hd ⊢
    obtain ⟨units, hu, hp⟩ := hs.exists_pieces hw hx hd
    rw [hp] at hw
    simp only [List.mem_append, or_imp, forall_and] at hw
    have hafter := getLast?_append_suffix s.source (segs.flatMap Segment.source)
    obtain ⟨groups, hg, hpieces⟩ := ih hw.2 (fun hin => hx (hin.trans (List.suffix_append _ _).isInfix))
      (fun hi hin => hd hi (hin.trans (hafter.trans (List.suffix_append _ _)).isInfix))
    have hreads := (readsBefore_of_pieces hp hw.1 (by rw [hu])).reads
    rw [hu] at hreads
    refine ⟨units :: groups, .cons hreads hg, ?_⟩
    rw [hp, hpieces, List.flatten_cons]

def DecodesTo (interpolations : Bool) (text : String) (f : Fragment) (part : Decoded) : Prop :=
  ∃ slice, f.span.slice? text = some slice ∧ decode interpolations slice = .ok part

lemma decodesTo_place {text : String} {groups : List (List Piece)} (front : List Char)
    (h : List.Forall₂ (fun s units => Reads interpolations s.source units) segs groups)
    (ht : text.toList = front ++ segs.flatMap Segment.source) :
    List.Forall₂ (DecodesTo interpolations text) (place (Text.size front) segs)
      (groups.map Decoded.ofPieces) := by
  induction h generalizing front with
  | nil => exact .nil
  | @cons s units segs groups hs _ ih =>
    rw [List.flatMap_cons, ← List.append_assoc] at ht
    refine .cons ⟨String.ofList s.source, ?_, ?_⟩ ?_
    · rw [Span.slice?, ht, Text.slice?_append]
      rfl
    · rw [decode_eq_ok_iff, String.toList_ofList]
      exact ⟨units, hs, rfl⟩
    · rw [← Text.size_append]
      exact ih (front ++ s.source) ht

lemma flatMap_source_groups {groups : List (List Piece)}
    (h : List.Forall₂ (fun s units => Reads interpolations s.source units) segs groups) :
    groups.flatten.flatMap Piece.source = segs.flatMap Segment.source := by
  induction h with
  | nil => rfl
  | @cons s units segs groups hs _ ih =>
    rw [List.flatten_cons, List.flatMap_append, List.flatMap_cons, ih, ← (reads_iff.mp hs).1,
      flatMap_source_pieces]

lemma sum_size_groups (groups : List (List Piece)) :
    ((groups.map Decoded.ofPieces).map Decoded.size).sum =
      Text.size (groups.flatten.flatMap Piece.value) := by
  induction groups with
  | nil => rfl
  | cons units groups ih =>
    rw [List.map_cons, List.map_cons, List.sum_cons, ih, List.flatten_cons, List.flatMap_append,
      Text.size_append, Decoded.size, Decoded.ofPieces, String.toList_ofList]

lemma join_value_groups (groups : List (List Piece)) :
    String.join ((groups.map Decoded.ofPieces).map Decoded.value) =
      (Decoded.ofPieces groups.flatten).value := by
  rw [← String.toList_inj, String.toList_join, Decoded.ofPieces, String.toList_ofList]
  induction groups with
  | nil => rfl
  | cons units groups ih =>
    rw [List.map_cons, List.map_cons, List.flatMap_cons, ih, List.flatten_cons, List.flatMap_append,
      Decoded.ofPieces, String.toList_ofList]

/-- A literal that decodes, with no escape of an `x` and no escaped opener, is decoded fragment by
fragment. The values of the fragments make up the value, and its table leads from where the value of a
fragment starts back to where the fragment starts. -/
theorem fragments_decode_to_value (interpolations : Bool) (text : String) (d : Decoded)
    (h : decode interpolations text = .ok d) (hx : ¬ ['\\', 'x'] <:+: text.toList)
    (hd : interpolations = true → ¬ ['$', '$', '{'] <:+: text.toList) :
    ∃ parts, List.Forall₂ (DecodesTo interpolations text) (ofText interpolations false text) parts ∧
      String.join (parts.map Decoded.value) = d.value ∧
      ∀ fs f gs, ofText interpolations false text = fs ++ f :: gs →
        d.sourceOffset? ((parts.take fs.length).map Decoded.size).sum = some f.span.start := by
  obtain ⟨units, hu, rfl⟩ := decode_eq_ok_iff.mp h
  obtain ⟨rfl, hw⟩ := reads_iff.mp hu
  have hsource := flatMap_source_segments interpolations none text.toList
  rw [← hsource] at hw hx hd
  obtain ⟨groups, hg, hp⟩ := (laid_segments interpolations none text.toList).exists_groups hw hx hd
  rw [hsource] at hp
  rw [hp, ofText_bare]
  refine ⟨groups.map Decoded.ofPieces, ?_, join_value_groups groups, ?_⟩
  · exact decodesTo_place [] hg hsource.symm
  · intro fs f gs hf
    obtain ⟨front, s, back, hsegs, hl, rfl⟩ := exists_of_place_eq hf
    have hfront := List.forall₂_take fs.length hg
    rw [hsegs, ← hl, List.take_left] at hfront
    rw [← hl, ← List.map_take, sum_size_groups, Nat.zero_add, ← flatMap_source_groups hfront]
    nth_rewrite 1 [← List.take_append_drop front.length groups]
    rw [List.flatten_append]
    exact sourceOffset?_append _ _

theorem fragments_decode_of_long_octal :
    decode true "\\477$\x7bé\x7d\\u0041" = .ok ⟨"'7$\x7bé\x7dA", [0, 3, 4, 5, 6, 7, 8, 9, 15]⟩ ∧
    (ofText true false "\\477$\x7bé\x7d\\u0041").map Fragment.span = [⟨0, 4⟩, ⟨4, 9⟩, ⟨9, 15⟩] ∧
    ∃ parts, List.Forall₂ (DecodesTo true "\\477$\x7bé\x7d\\u0041")
        (ofText true false "\\477$\x7bé\x7d\\u0041") parts ∧
      String.join (parts.map Decoded.value) = "'7$\x7bé\x7dA" ∧
      ∀ fs f gs, ofText true false "\\477$\x7bé\x7d\\u0041" = fs ++ f :: gs →
        [0, 3, 4, 5, 6, 7, 8, 9, 15][((parts.take fs.length).map Decoded.size).sum]? =
          some f.span.start := by
  have h : decode true "\\477$\x7bé\x7d\\u0041" =
      .ok ⟨"'7$\x7bé\x7dA", [0, 3, 4, 5, 6, 7, 8, 9, 15]⟩ := by decide +kernel
  refine ⟨h, by decide +kernel, ?_⟩
  exact fragments_decode_to_value true _ _ h (by decide +kernel) (fun _ => by decide +kernel)

end Fragment

end HclLiteral
