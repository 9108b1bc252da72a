import HclLiteral.Proofs.Utf8
import HclLiteral.Token.Quoted
import Mathlib.Logic.Function.Iterate

namespace HclLiteral

namespace Mark

def ofChar (c : Char) : Mark :=
  if c = '$' then .dollar
  else if c = '{' then .leftBrace
  else if c = '}' then .rightBrace
  else if c = '"' then .quote
  else if c = '\\' then .backslash
  else .plain

lemma ofChar_spec (c : Char) :
    match ofChar c with
    | .dollar => c = '$'
    | .leftBrace => c = '{'
    | .rightBrace => c = '}'
    | .quote => c = '"'
    | .backslash => c = '\\'
    | .plain => c ≠ '$' ∧ c ≠ '{' ∧ c ≠ '}' ∧ c ≠ '"' ∧ c ≠ '\\' := by
  by_cases hd : c = '$'
  · subst c; rfl
  by_cases hl : c = '{'
  · subst c; rfl
  by_cases hr : c = '}'
  · subst c; rfl
  by_cases hq : c = '"'
  · subst c; rfl
  by_cases hb : c = '\\'
  · subst c; rfl
  rw [ofChar, if_neg hd, if_neg hl, if_neg hr, if_neg hq, if_neg hb]
  exact ⟨hd, hl, hr, hq, hb⟩

lemma ofByte_wide {b : UInt8} (h : 0x80 ≤ b) : ofByte b = .plain := by
  have hne {x : UInt8} (hx : x < 0x80) : b ≠ x := by
    rintro rfl
    exact UInt8.lt_irrefl _ (UInt8.lt_of_lt_of_le hx h)
  rw [ofByte, if_neg (hne (by decide)), if_neg (hne (by decide)), if_neg (hne (by decide)),
    if_neg (hne (by decide)), if_neg (hne (by decide))]

lemma ofByte_dollar_iff {b : UInt8} : ofByte b = .dollar ↔ b = 0x24 := by
  unfold ofByte
  repeat' split
  all_goals simp_all

lemma ofByte_leftBrace_iff {b : UInt8} : ofByte b = .leftBrace ↔ b = 0x7B := by
  unfold ofByte
  repeat' split
  all_goals simp_all

lemma ofByte_narrow {c : Char} (h : c.toNat < 128) : ofByte (UInt8.ofNat c.toNat) = ofChar c := by
  have hall : ∀ n < 128, ofByte (UInt8.ofNat n) = ofChar (Char.ofNat n) := by decide
  simpa only [Char.ofNat_toNat] using hall c.toNat h

lemma ofChar_wide {c : Char} (h : 128 ≤ c.toNat) : ofChar c = .plain := by
  have hne {d : Char} (hd : d.toNat < 128) : c ≠ d := by
    rintro rfl
    omega
  rw [ofChar, if_neg (hne (by decide)), if_neg (hne (by decide)), if_neg (hne (by decide)),
    if_neg (hne (by decide)), if_neg (hne (by decide))]

end Mark

namespace Quoted

open Grammar Text

lemma step_plain (below : List Frame) (frame : Frame) :
    ∃ next, step below frame .plain = next :: below ∧ step below next .plain = next :: below := by
  cases frame with
  | text => exact ⟨.text, rfl, rfl⟩
  | escaped => exact ⟨.text, rfl, rfl⟩
  | dollar => exact ⟨.text, rfl, rfl⟩
  | interpolation n => exact ⟨.interpolation n, rfl, rfl⟩

lemma run_steady {frame : Frame} {below : List Frame} {xs : List UInt8}
    (h : ∀ x ∈ xs, step below frame (Mark.ofByte x) = frame :: below) (bs : List UInt8) :
    run (frame :: below) (xs ++ bs) = (run (frame :: below) bs).map (· + xs.length) := by
  induction xs with
  | nil => simp
  | cons x xs ih =>
    rw [List.forall_mem_cons] at h
    rw [List.cons_append, run, h.1, ih h.2, Option.map_map]
    rfl

lemma run_plain {next : Frame} {below : List Frame} (hs : step below next .plain = next :: below)
    {xs : List UInt8} (hx : ∀ x ∈ xs, 0x80 ≤ x) (bs : List UInt8) :
    run (next :: below) (xs ++ bs) = (run (next :: below) bs).map (· + xs.length) :=
  run_steady (fun x hm => by rw [Mark.ofByte_wide (hx x hm), hs]) bs

lemma run_encodeChar (frame : Frame) (below : List Frame) (c : Char) (bs : List UInt8) :
    run (frame :: below) (String.utf8EncodeChar c ++ bs) =
      (run (step below frame (Mark.ofChar c)) bs).map (· + c.utf8Size) := by
  rw [← String.length_utf8EncodeChar]
  rcases Nat.lt_or_ge c.toNat 128 with hc | hc
  · rw [encodeChar_narrow hc, List.singleton_append, run, Mark.ofByte_narrow hc]
    rfl
  · obtain ⟨lead, tail, he, -, hl, ht⟩ := encodeChar_wide hc
    obtain ⟨next, hn, hp⟩ := step_plain below frame
    rw [he, List.cons_append, run, Mark.ofByte_wide (UInt8.le_trans (by decide) hl),
      Mark.ofChar_wide hc, hn, run_plain hp (fun x hx => (ht x hx).1), Option.map_map]
    rfl

def TextThen (after : List Char → Prop) (cs : List Char) : Prop :=
  ∃ text rest, cs = text ++ '"' :: rest ∧ StringText text ∧ after rest

def DollarThen (after : List Char → Prop) (cs : List Char) : Prop :=
  ∃ text rest, cs = text ++ '"' :: rest ∧ StringText ('$' :: text) ∧ after rest

def BodyThen (after : List Char → Prop) (cs : List Char) : Prop :=
  ∃ body rest, cs = body ++ '}' :: rest ∧ Body body ∧ after rest

/-- The characters that close all frames, the last one closing the outermost. -/
def Completes : List Frame → List Char → Prop
  | [] => (· = [])
  | .text :: below => TextThen (Completes below)
  | .escaped :: below => fun cs => ∃ c rest, cs = c :: rest ∧ TextThen (Completes below) rest
  | .dollar :: below => DollarThen (Completes below)
  | .interpolation n :: below => BodyThen (BodyThen^[n] (Completes below))

variable {after : List Char → Prop} {c : Char} {cs : List Char}

lemma textThen_quote : TextThen after ('"' :: cs) ↔ after cs := by
  constructor
  · rintro ⟨text, rest, he, ht, ha⟩
    cases ht with
    | nil => exact (List.cons.inj he).2 ▸ ha
    | char hq => exact absurd (List.cons.inj he).1.symm hq
    | escape => cases (List.cons.inj he).1
    | dollar => cases (List.cons.inj he).1
    | interpolation => cases (List.cons.inj he).1
  · exact fun ha => ⟨[], cs, rfl, .nil, ha⟩

lemma textThen_backslash :
    TextThen after ('\\' :: cs) ↔ ∃ c rest, cs = c :: rest ∧ TextThen after rest := by
  constructor
  · rintro ⟨text, rest, he, ht, ha⟩
    cases ht with
    | nil => cases (List.cons.inj he).1
    | char _ hb => exact absurd (List.cons.inj he).1.symm hb
    | escape ht => exact ⟨_, _, (List.cons.inj he).2, _, rest, rfl, ht, ha⟩
    | dollar => cases (List.cons.inj he).1
    | interpolation => cases (List.cons.inj he).1
  · rintro ⟨c, _, rfl, text, rest, rfl, ht, ha⟩
    exact ⟨'\\' :: c :: text, rest, rfl, .escape ht, ha⟩

lemma textThen_dollar : TextThen after ('$' :: cs) ↔ DollarThen after cs := by
  constructor
  · rintro ⟨text, rest, he, ht, ha⟩
    cases text with
    | nil => cases (List.cons.inj he).1
    | cons c text =>
      obtain ⟨rfl, rfl⟩ := List.cons.inj he
      exact ⟨text, rest, rfl, ht, ha⟩
  · rintro ⟨text, rest, rfl, ht, ha⟩
    exact ⟨'$' :: text, rest, rfl, ht, ha⟩

lemma textThen_char (hq : c ≠ '"') (hb : c ≠ '\\') (hd : c ≠ '$') :
    TextThen after (c :: cs) ↔ TextThen after cs := by
  constructor
  · rintro ⟨text, rest, he, ht, ha⟩
    cases ht with
    | nil => exact absurd (List.cons.inj he).1 hq
    | char _ _ _ ht => exact ⟨_, rest, (List.cons.inj he).2, ht, ha⟩
    | escape => exact absurd (List.cons.inj he).1 hb
    | dollar => exact absurd (List.cons.inj he).1 hd
    | interpolation => exact absurd (List.cons.inj he).1 hd
  · rintro ⟨text, rest, rfl, ht, ha⟩
    exact ⟨c :: text, rest, rfl, .char hq hb hd ht, ha⟩

lemma dollarThen_brace : DollarThen after ('{' :: cs) ↔ BodyThen (TextThen after) cs := by
  constructor
  · rintro ⟨text, rest, he, ht, ha⟩
    cases ht with
    | char _ _ hd => exact absurd rfl hd
    | dollar hh =>
      cases text with
      | nil => cases (List.cons.inj he).1
      | cons c text =>
        obtain ⟨rfl, -⟩ := List.cons.inj he
        exact absurd rfl hh
    | @interpolation body text hb ht =>
      refine ⟨body, text ++ '"' :: rest, ?_, hb, text, rest, rfl, ht, ha⟩
      rw [(List.cons.inj he).2]
      simp
  · rintro ⟨body, _, rfl, hb, text, rest, rfl, ht, ha⟩
    exact ⟨'{' :: body ++ '}' :: text, rest, by simp, .interpolation hb ht, ha⟩

lemma dollarThen_char (hc : c ≠ '{') : DollarThen after (c :: cs) ↔ TextThen after (c :: cs) := by
  constructor
  · rintro ⟨text, rest, he, ht, ha⟩
    cases ht with
    | char _ _ hd => exact absurd rfl hd
    | dollar _ ht => exact ⟨text, rest, he, ht, ha⟩
    | interpolation => exact absurd (List.cons.inj he).1 hc
  · rintro ⟨text, rest, he, ht, ha⟩
    refine ⟨text, rest, he, .dollar ?_ ht, ha⟩
    cases text with
    | nil => simp
    | cons d text =>
      obtain ⟨rfl, -⟩ := List.cons.inj he
      simpa using hc

lemma bodyThen_right : BodyThen after ('}' :: cs) ↔ after cs := by
  constructor
  · rintro ⟨body, rest, he, hb, ha⟩
    cases hb with
    | nil => exact (List.cons.inj he).2 ▸ ha
    | char _ hr => exact absurd (List.cons.inj he).1.symm hr
    | braces => cases (List.cons.inj he).1
    | string => cases (List.cons.inj he).1
  · exact fun ha => ⟨[], cs, rfl, .nil, ha⟩

lemma bodyThen_left : BodyThen after ('{' :: cs) ↔ BodyThen (BodyThen after) cs := by
  constructor
  · rintro ⟨body, rest, he, hb, ha⟩
    cases hb with
    | nil => cases (List.cons.inj he).1
    | char hl => exact absurd (List.cons.inj he).1.symm hl
    | @braces inner outer hi ho =>
      refine ⟨inner, outer ++ '}' :: rest, ?_, hi, outer, rest, rfl, ho, ha⟩
      rw [(List.cons.inj he).2]
      simp
    | string => cases (List.cons.inj he).1
  · rintro ⟨inner, _, rfl, hi, outer, rest, rfl, ho, ha⟩
    exact ⟨'{' :: inner ++ '}' :: outer, rest, by simp, .braces hi ho, ha⟩

lemma bodyThen_quote : BodyThen after ('"' :: cs) ↔ TextThen (BodyThen after) cs := by
  constructor
  · rintro ⟨body, rest, he, hb, ha⟩
    cases hb with
    | nil => cases (List.cons.inj he).1
    | char _ _ hq => exact absurd (List.cons.inj he).1.symm hq
    | braces => cases (List.cons.inj he).1
    | @string text outer ht ho =>
      refine ⟨text, outer ++ '}' :: rest, ?_, ht, outer, rest, rfl, ho, ha⟩
      rw [(List.cons.inj he).2]
      simp
  · rintro ⟨text, _, rfl, ht, outer, rest, rfl, ho, ha⟩
    exact ⟨'"' :: text ++ '"' :: outer, rest, by simp, .string ht ho, ha⟩

lemma bodyThen_char (hl : c ≠ '{') (hr : c ≠ '}') (hq : c ≠ '"') :
    BodyThen after (c :: cs) ↔ BodyThen after cs := by
  constructor
  · rintro ⟨body, rest, he, hb, ha⟩
    cases hb with
    | nil => exact absurd (List.cons.inj he).1 hr
    | char _ _ _ hb => exact ⟨_, rest, (List.cons.inj he).2, hb, ha⟩
    | braces => exact absurd (List.cons.inj he).1 hl
    | string => exact absurd (List.cons.inj he).1 hq
  · rintro ⟨body, rest, rfl, hb, ha⟩
    exact ⟨c :: body, rest, rfl, .char hl hr hq hb, ha⟩

lemma completes_textStep (below : List Frame) (c : Char) (cs : List Char) :
    Completes (textStep below (Mark.ofChar c)) cs ↔ TextThen (Completes below) (c :: cs) := by
  have hc := Mark.ofChar_spec c
  cases hm : Mark.ofChar c <;> rw [hm] at hc
  case dollar =>
    subst hc
    exact textThen_dollar.symm
  case leftBrace | rightBrace =>
    subst hc
    exact (textThen_char (by decide) (by decide) (by decide)).symm
  case quote =>
    subst hc
    exact textThen_quote.symm
  case backslash =>
    subst hc
    exact textThen_backslash.symm
  case plain =>
    obtain ⟨hd, -, -, hq, hb⟩ := hc
    exact (textThen_char hq hb hd).symm

lemma completes_cons (frame : Frame) (below : List Frame) (c : Char) (cs : List Char) :
    Completes (frame :: below) (c :: cs) ↔ Completes (step below frame (Mark.ofChar c)) cs := by
  cases frame with
  | text => exact (completes_textStep below c cs).symm
  | escaped =>
    constructor
    · rintro ⟨d, rest, he, ht⟩
      exact (List.cons.inj he).2 ▸ ht
    · exact fun ht => ⟨c, cs, rfl, ht⟩
  | dollar =>
    by_cases hl : c = '{'
    · subst c
      exact dollarThen_brace
    · refine (dollarThen_char hl).trans ((completes_textStep below c cs).symm.trans ?_)
      have hc := Mark.ofChar_spec c
      cases hm : Mark.ofChar c <;> rw [hm] at hc
      case leftBrace => exact absurd hc hl
      all_goals rfl
  | interpolation n =>
    have hc := Mark.ofChar_spec c
    cases hm : Mark.ofChar c <;> rw [hm] at hc
    case dollar | backslash =>
      subst hc
      exact bodyThen_char (by decide) (by decide) (by decide)
    case leftBrace =>
      subst hc
      refine bodyThen_left.trans ?_
      rw [← Function.iterate_succ_apply' BodyThen n]
      rfl
    case rightBrace =>
      subst hc
      refine bodyThen_right.trans ?_
      cases n with
      | zero => rfl
      | succ n =>
        rw [Function.iterate_succ_apply']
        rfl
    case quote =>
      subst hc
      exact bodyThen_quote
    case plain =>
      obtain ⟨-, hl, hr, hq, -⟩ := hc
      exact bodyThen_char hl hr hq

lemma not_completes_nil (frame : Frame) (below : List Frame) : ¬ Completes (frame :: below) [] := by
  cases frame with
  | text => rintro ⟨text, rest, he, -⟩; cases text <;> cases he
  | escaped => rintro ⟨c, rest, he, -⟩; cases he
  | dollar => rintro ⟨text, rest, he, -⟩; cases text <;> cases he
  | interpolation n => rintro ⟨body, rest, he, -⟩; cases body <;> cases he

lemma run_nil_eq_some_iff (cs : List Char) (n : Nat) :
    run [] (encode cs) = some n ↔
      ∃ taken rest, cs = taken ++ rest ∧ size taken = n ∧ Completes [] taken := by
  rw [run_nil, Option.some.injEq]
  constructor
  · rintro rfl
    exact ⟨[], cs, rfl, rfl, rfl⟩
  · rintro ⟨taken, rest, -, rfl, rfl⟩
    rfl

lemma run_eq_some_iff (frames : List Frame) (cs : List Char) (n : Nat) :
    run frames (encode cs) = some n ↔
      ∃ taken rest, cs = taken ++ rest ∧ size taken = n ∧ Completes frames taken := by
  induction cs generalizing frames n with
  | nil =>
    cases frames with
    | nil => exact run_nil_eq_some_iff [] n
    | cons frame below =>
      constructor
      · intro h
        cases h
      · rintro ⟨taken, rest, he, -, hc⟩
        rw [(List.append_eq_nil_iff.mp he.symm).1] at hc
        exact absurd hc (not_completes_nil frame below)
  | cons c cs ih =>
    cases frames with
    | nil => exact run_nil_eq_some_iff (c :: cs) n
    | cons frame below =>
      rw [encode_cons, run_encodeChar, Option.map_eq_some_iff]
      constructor
      · rintro ⟨m, hm, rfl⟩
        obtain ⟨taken, rest, rfl, rfl, hc⟩ := (ih _ m).mp hm
        exact ⟨c :: taken, rest, rfl, Nat.add_comm _ _, (completes_cons frame below c taken).mpr hc⟩
      · rintro ⟨taken, rest, he, rfl, hc⟩
        cases taken with
        | nil => exact absurd hc (not_completes_nil frame below)
        | cons d taken =>
          obtain ⟨rfl, rfl⟩ := List.cons.inj he
          exact ⟨size taken, (ih _ _).mpr ⟨taken, rest, rfl, rfl, (completes_cons frame below c taken).mp hc⟩,
            Nat.add_comm _ _⟩

end Quoted

end HclLiteral
