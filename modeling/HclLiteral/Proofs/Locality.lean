import HclLiteral.Proofs.HeredocLines
import HclLiteral.Proofs.SpanLayout
import HclLiteral.Proofs.Tiling
import Mathlib.Algebra.Group.Nat.Defs

/-! A scan depends on the bytes it is given and not on the offset they lie at. The tokens from an offset on
are those of the text cut there, and the spans of a text move with what is put in front of it. -/

namespace HclLiteral

namespace Scanner

def moveTo (pos : Nat) (s : Scanner) : Scanner := { s with pos }

lemma next_moveTo (s : Scanner) (pos : Nat) :
    (s.moveTo pos).next = (s.next.1, s.next.2.moveTo (pos + s.next.1.length)) := rfl

lemma run_moveTo (s : Scanner) (pos : Nat) : (s.moveTo pos).run.1 = s.run.1 := by
  fun_induction run s generalizing pos with
  | case1 s hr =>
    have hm : (s.moveTo pos).rest = [] := hr
    rw [run, if_pos hm]
  | case2 s hr tokens last he ih =>
    have hm : (s.moveTo pos).rest ≠ [] := hr
    have htail := ih (pos + s.next.1.length)
    rw [he] at htail
    rw [run, if_neg hm, next_moveTo]
    exact congrArg (s.next.1 :: ·) htail

end Scanner

namespace Reader

variable {r last : Reader} {tokens found : List Token}

inductive Reads : Reader → List Token → Prop
  | done {r : Reader} : r.next = .ok (⟨.endOfText, 0⟩, r) → Reads r []
  | cons {r after : Reader} {token : Token} {tokens : List Token} :
      r.next = .ok (token, after) → token.tag ≠ .endOfText → Reads after tokens →
      Reads r (token :: tokens)

lemma Run.reads (h : Run r tokens last) (hall : ∀ token ∈ tokens, token.tag ≠ .endOfText)
    (hend : last.next = .ok (⟨.endOfText, 0⟩, last)) : Reads r tokens := by
  induction h with
  | nil => exact .done hend
  | cons hn _ ih =>
    rw [List.forall_mem_cons] at hall
    exact .cons hn hall.1 (ih hall.2 hend)

lemma Reads.unique (h : Reads r tokens) (h' : Reads r found) : tokens = found := by
  induction h generalizing found with
  | done hn =>
    cases h' with
    | done => rfl
    | cons hn' ht =>
      cases hn.symm.trans hn'
      exact absurd rfl ht
  | cons hn ht _ ih =>
    cases h' with
    | done hn' =>
      cases hn.symm.trans hn'
      exact absurd rfl ht
    | cons hn' _ hr =>
      cases hn.symm.trans hn'
      rw [ih hr]

lemma Valid.next_at_end (h : r.Valid) (he : r.cursor.pos = r.cursor.source.length) :
    r.next = .ok (⟨.endOfText, 0⟩, r) := by
  obtain ⟨ht, ha⟩ := h.tiles.at_end he
  have hn := h.next_eq
  rwa [ht, ha] at hn

lemma Valid.reads_iff (h : r.Valid) : r.Reads tokens ↔ tokens = r.scanner.run.1 := by
  obtain ⟨last, hrun, hpos, hall⟩ := h.run
  obtain ⟨hlast, hsource, -⟩ := hrun.valid h
  have hreads : r.Reads r.scanner.run.1 := by
    apply hrun.reads fun token ht => (hall token ht).1
    apply hlast.next_at_end
    rw [hpos, hsource]
  constructor
  · intro hr
    exact hr.unique hreads
  · rintro rfl
    exact hreads

end Reader

lemma Cursor.rest_atOffset {text : String} {p : Nat} {before after : List Char}
    (h : Text.cut? text.toList p = some (before, after)) :
    (atOffset text p).rest = Text.bytes (String.ofList after) := by
  obtain ⟨ht, hs⟩ := Text.cut?_eq_some h
  have hp : Text.size before ≤ (Text.bytes text).length := by
    rw [Text.bytes, ht, Text.length_encode, Text.size_append]
    exact Nat.le_add_right _ _
  rw [Text.bytes, String.toList_ofList, ← Pattern.drop_encode_append before after, ← ht, ← hs]
  exact congrArg (List.drop · _) (Nat.min_eq_left hp)

lemma Cursor.atOffset_zero (text : String) : atOffset text 0 = ofText text := by
  rw [atOffset, Nat.zero_min, ofText]

namespace Text

lemma getLast?_of_getLast?_encode {cs : List Char} (h : (encode cs).getLast? = some 0x24) :
    cs.getLast? = some '$' := by
  rw [List.getLast?_eq_getElem?] at h
  obtain ⟨before, after, rfl, hs⟩ := (getElem?_encode_eq_iff (c := '$') (by decide)).mp h
  have hone : '$'.utf8Size = 1 := by decide
  rw [length_encode, size_append, size_cons, hone] at hs
  obtain rfl : after = [] := eq_nil_of_size_eq_zero (by omega)
  exact List.getLast?_concat

end Text

namespace Interpolation

variable {front bs : List UInt8}

lemma freeOpener?_append_left (ho : ∀ n < front.length, opens ((front ++ bs).drop n) = false)
    (afterDollar : Bool) :
    freeOpener? afterDollar (front ++ bs) =
      (freeOpener? (front.getLast?.elim afterDollar (Mark.ofByte · = .dollar)) bs).map
        (· + front.length) := by
  induction front generalizing afterDollar with
  | nil => simp
  | cons b front ih =>
    have hb : opens (b :: (front ++ bs)) = false := ho 0 (Nat.succ_pos _)
    have hfront : ∀ n < front.length, opens ((front ++ bs).drop n) = false := by
      intro n hn
      exact ho (n + 1) (Nat.succ_lt_succ hn)
    rw [List.cons_append, freeOpener?, hb, ih hfront, List.getLast?_cons]
    cases front.getLast? <;> simp [Function.comp_def, Nat.add_assoc]

lemma opens_drop_append {pre rest : List Char} (hp : ¬ ['$', '{'] <:+: pre)
    (hd : pre.getLast? ≠ some '$') {n : Nat} (hn : n < Text.size pre) :
    opens ((Text.encode pre ++ Text.encode rest).drop n) = false := by
  by_contra ho
  rw [Bool.not_eq_false, ← Text.encode_append] at ho
  obtain ⟨before, more, he, rfl⟩ := exists_of_opens_drop ho
  rcases List.append_eq_append_iff.mp he with ⟨between, rfl, -⟩ | ⟨inside, rfl, hi⟩
  · rw [Text.size_append] at hn
    omega
  · -- the dollar sign of the opener is in front, and its brace is too or comes right behind
    cases inside with
    | nil => simp at hn
    | cons c inside =>
      obtain ⟨rfl, hbrace⟩ := List.cons.inj hi
      cases inside with
      | nil => simp at hd
      | cons d inside =>
        obtain ⟨rfl, -⟩ := List.cons.inj hbrace
        exact hp ⟨before, inside, by simp⟩

variable {pre rest : String}

lemma freeOpener?_bytes_append (hp : ¬ ['$', '{'] <:+: pre.toList) (hd : pre.toList.getLast? ≠ some '$')
    (rest : String) :
    freeOpener? false (Text.bytes (pre ++ rest)) =
      (freeOpener? false (Text.bytes rest)).map (· + (Text.bytes pre).length) := by
  have ho : ∀ n < (Text.bytes pre).length,
      opens ((Text.bytes pre ++ Text.bytes rest).drop n) = false := by
    intro n hn
    rw [Text.bytes, Text.length_encode] at hn
    exact opens_drop_append hp hd hn
  have hl : (Text.bytes pre).getLast?.elim false (Mark.ofByte · = .dollar) = false := by
    cases hb : (Text.bytes pre).getLast? with
    | none => rfl
    | some b =>
      rw [Option.elim_some, decide_eq_false_iff_not, Mark.ofByte_dollar_iff]
      rintro rfl
      exact hd (Text.getLast?_of_getLast?_encode hb)
  rw [bytes_append, freeOpener?_append_left ho, hl]

lemma attempts_bytes_append (hp : ¬ ['$', '{'] <:+: pre.toList) (hd : pre.toList.getLast? ≠ some '$')
    (h : (Text.bytes (pre ++ rest)).length < 2 ^ 32) :
    attempts none (Text.bytes (pre ++ rest)) =
      (attempts none (Text.bytes rest)).map (·.shiftRight (Text.bytes pre).length) := by
  have hf := freeOpener?_bytes_append hp hd rest
  cases hr : freeOpener? false (Text.bytes rest) with
  | none =>
    rw [hr] at hf
    simp only [attempts, hf, hr, Option.map_none, List.map_nil]
  | some first =>
    rw [hr] at hf
    have hwhole := attempts_of_freeOpener? hf (Text.isTail_bytes _)
    have hlater := attempts_of_freeOpener? hr (Text.isTail_bytes rest)
    have hfirst := freeOpener?_le hr
    -- both scans start at the same opener, with the same bytes left
    have hdrop : (Text.bytes (pre ++ rest)).drop (first + (Text.bytes pre).length) =
        (Text.bytes rest).drop first := by
      rw [bytes_append, Nat.add_comm, ← List.drop_drop, List.drop_left]
    rw [hdrop] at hwhole
    apply hwhole.unique
    apply hlater.shift
    rw [bytes_append, List.length_append] at h
    rw [List.length_drop, Offset.max]
    omega

lemma shiftRight_of_mem_spans (h : (Text.bytes (pre ++ rest)).length < 2 ^ 32) {s : Span}
    (hs : s ∈ spans rest) :
    s.shiftRight (Text.bytes pre).length =
      ⟨s.start + (Text.bytes pre).length, s.stop + (Text.bytes pre).length⟩ := by
  obtain ⟨pos, hlayout, -⟩ := spans_layout rest
  have hcovers := (hlayout.covers s hs).2
  have hstop := hcovers.stop_le_length
  have hstart := hcovers.start_lt_stop
  rw [bytes_append, List.length_append] at h
  apply Span.shiftRight_eq
  · rw [Offset.max]
    omega
  · rw [Offset.max]
    omega

lemma spans_append (hp : ¬ ['$', '{'] <:+: pre.toList) (hd : pre.toList.getLast? ≠ some '$')
    (h : (Text.bytes (pre ++ rest)).length < 2 ^ 32) :
    spans (pre ++ rest) = (spans rest).map fun s =>
      ⟨s.start + (Text.bytes pre).length, s.stop + (Text.bytes pre).length⟩ := by
  calc spans (pre ++ rest)
      = (spans rest).map (·.shiftRight (Text.bytes pre).length) := by
        rw [spans_eq_filterMap, attempts_bytes_append hp hd h, ← map_shiftRight_filterMap,
          ← spans_eq_filterMap]
    _ = _ := List.map_congr_left fun _ hs => shiftRight_of_mem_spans h hs

end Interpolation

lemma run_atOffset {text : String} {p : Nat} {before after : List Char}
    (h : Text.cut? text.toList p = some (before, after)) :
    (Scanner.ofCursor (.atOffset text p)).run.1 = tokens (String.ofList after) := by
  have hs : Scanner.ofCursor (.atOffset text p) =
      (Scanner.ofBytes (Text.bytes (String.ofList after))).moveTo (Cursor.atOffset text p).pos := by
    rw [Scanner.ofCursor, Cursor.rest_atOffset h]
    rfl
  rw [hs, Scanner.run_moveTo, tokens]

/-- The tokens from a character boundary on are those of the rest of the text alone. The spans behind a text
that neither holds an opener nor ends with a dollar sign are those of the rest alone, moved by its size. -/
theorem scanning_is_local :
    (∀ (text : String) (p : Nat) (before after : List Char), (Text.bytes text).length < 2 ^ 32 →
      Text.cut? text.toList p = some (before, after) →
      (Scanner.ofCursor (.atOffset text p)).run.1 = tokens (String.ofList after) ∧
      ∀ found, ((Reader.ofCursor (.atOffset text p)).Reads found ↔ found = tokens (String.ofList after)) ∧
        ((Reader.ofCursor (.ofText (String.ofList after))).Reads found ↔
          found = tokens (String.ofList after))) ∧
    ∀ pre rest : String, ¬ ['$', '{'] <:+: pre.toList → pre.toList.getLast? ≠ some '$' →
      (Text.bytes (pre ++ rest)).length < 2 ^ 32 →
      Interpolation.spans (pre ++ rest) = (Interpolation.spans rest).map fun s =>
        ⟨s.start + (Text.bytes pre).length, s.stop + (Text.bytes pre).length⟩ := by
  constructor
  · intro text p before after h hc
    have hrun := run_atOffset hc
    have hshort : (Text.bytes (String.ofList after)).length < 2 ^ 32 := by
      rw [← Cursor.rest_atOffset hc, Cursor.length_rest]
      exact Nat.lt_of_le_of_lt (Nat.sub_le _ _) h
    refine ⟨hrun, fun found => ⟨?_, ?_⟩⟩
    · rw [← hrun]
      exact (Reader.valid_ofCursor h p).reads_iff
    · rw [← Cursor.atOffset_zero, (Reader.valid_ofCursor hshort 0).reads_iff, Cursor.atOffset_zero]
      rfl
  · intro pre rest hp hd h
    exact Interpolation.spans_append hp hd h

theorem scanning_is_local_behind_quote :
    (Text.bytes "é\"$\x7ba \"é\x7d").length < 2 ^ 32 ∧
    Text.cut? "é\"$\x7ba \"é\x7d".toList 3 =
      some (['é', '"'], ['$', '{', 'a', ' ', '"', 'é', '}']) ∧
    (Reader.ofCursor (.atOffset "é\"$\x7ba \"é\x7d" 3)).Reads
      [⟨.interpolationStart, 2⟩, ⟨.name, 1⟩, ⟨.blank, 1⟩, ⟨.openString, 4⟩] ∧
    ¬ ['$', '{'] <:+: "é\x7d$a".toList ∧ "é\x7d$a".toList.getLast? ≠ some '$' ∧
    (Text.bytes ("é\x7d$a" ++ "$\x7bb\x7d$$\x7bc\x7d$\x7b")).length < 2 ^ 32 ∧
    Interpolation.spans ("é\x7d$a" ++ "$\x7bb\x7d$$\x7bc\x7d$\x7b") = [⟨5, 9⟩, ⟨10, 14⟩, ⟨14, 16⟩] := by
  have hlength : (Text.bytes "é\"$\x7ba \"é\x7d").length = 11 := by decide +kernel
  have hlt : (Text.bytes "é\"$\x7ba \"é\x7d").length < 2 ^ 32 := by
    rw [hlength]
    decide
  have hcut : Text.cut? "é\"$\x7ba \"é\x7d".toList 3 =
      some (['é', '"'], ['$', '{', 'a', ' ', '"', 'é', '}']) := by decide +kernel
  have htokens : tokens (String.ofList ['$', '{', 'a', ' ', '"', 'é', '}']) =
      [⟨.interpolationStart, 2⟩, ⟨.name, 1⟩, ⟨.blank, 1⟩, ⟨.openString, 4⟩] := by decide +kernel
  have hp : ¬ ['$', '{'] <:+: "é\x7d$a".toList := by decide +kernel
  have hd : "é\x7d$a".toList.getLast? ≠ some '$' := by decide +kernel
  have hlength' : (Text.bytes ("é\x7d$a" ++ "$\x7bb\x7d$$\x7bc\x7d$\x7b")).length = 16 := by
    decide +kernel
  have hlt' : (Text.bytes ("é\x7d$a" ++ "$\x7bb\x7d$$\x7bc\x7d$\x7b")).length < 2 ^ 32 := by
    rw [hlength']
    decide
  have hspans : Interpolation.spans "$\x7bb\x7d$$\x7bc\x7d$\x7b" = [⟨0, 4⟩, ⟨5, 9⟩, ⟨9, 11⟩] := by
    decide +kernel
  have hsize : (Text.bytes "é\x7d$a").length = 5 := by decide +kernel
  obtain ⟨-, hreads⟩ := scanning_is_local.1 _ 3 _ _ hlt hcut
  have hmoved := scanning_is_local.2 _ _ hp hd hlt'
  rw [hspans, hsize] at hmoved
  exact ⟨hlt, hcut, (hreads _).1.mpr htokens.symm, hp, hd, hlt', hmoved⟩

end HclLiteral
