import HclLiteral.Interpolation.Attempt
import HclLiteral.Proofs.QuotedGrammar
import HclLiteral.Proofs.TokenShape

/-! An attempt at an opener ends where the grammar closes the interpolation. The scanner counts braces
for each open interpolation and skips strings as tokens; it is followed by one frame of the string
reader that counts all braces together. -/

namespace HclLiteral

namespace Quoted

lemma step_append (below outer : List Frame) (frame : Frame) (m : Mark) :
    step (below ++ outer) frame m = step below frame m ++ outer := by
  cases frame with
  | interpolation n => cases n <;> cases m <;> rfl
  | _ => cases m <;> rfl

lemma run_append (frames outer : List Frame) (bs : List UInt8) :
    run (frames ++ outer) bs =
      (run frames bs).bind fun n => (run outer (bs.drop n)).map (· + n) := by
  fun_induction run frames bs with
  | case1 bs => simp
  | case2 frame below => rfl
  | case3 frame below b bs ih =>
    rw [List.cons_append, run, step_append, ih, Option.map_bind, Option.bind_map]
    congr 1
    funext n
    simp [Function.comp_def, Nat.add_assoc]

lemma step_neutral {b : UInt8} (h : Byte.IsNeutral b) (n : Nat) (below : List Frame) :
    step below (.interpolation n) (Mark.ofByte b) = .interpolation n :: below := by
  obtain ⟨hl, hr, hq⟩ := h
  rw [Mark.ofByte, if_neg hl, if_neg hr, if_neg hq]
  repeat' split
  all_goals rfl

lemma run_neutral (n k : Nat) (below : List Frame) {bs : List UInt8} (hk : k ≤ bs.length)
    (h : Token.Neutral k bs) :
    run (.interpolation n :: below) bs =
      (run (.interpolation n :: below) (bs.drop k)).map (· + k) := by
  have hs := run_steady (fun x hx => step_neutral (h x hx) n below) (bs.drop k)
  rwa [List.take_append_drop, List.length_take, Nat.min_eq_left hk] at hs

lemma run_string {n : Nat} {bs : List UInt8} (h : length? bs = some n) (k : Nat) :
    run [.interpolation k] (0x22 :: bs) =
      (run [.interpolation k] (bs.drop n)).map (· + (n + 1)) := by
  have hr := run_append [.text] [.interpolation k] bs
  rw [show run [.text] bs = some n from h, Option.bind_some] at hr
  have hq : run [.interpolation k] (0x22 :: bs) =
      (run ([.text] ++ [.interpolation k]) bs).map (· + 1) := rfl
  rw [hq, hr, Option.map_map]
  rfl

lemma run_openString {bs : List UInt8} (h : length? bs = none) (k : Nat) :
    run [.interpolation k] (0x22 :: bs) = none := by
  have hr := run_append [.text] [.interpolation k] bs
  rw [show run [.text] bs = none from h, Option.bind_none] at hr
  exact congrArg (Option.map (· + 1)) hr

end Quoted

namespace Scanner

/-- The braces open in an interpolation and in those around it, the opener of each inner one counted
as a brace of the next. -/
def flatDepth (depth : Nat) : List Nat → Nat
  | [] => depth
  | outer :: depths => depth + flatDepth outer depths + 1

def flatClosing? : Scanner → Option Nat
  | ⟨_, _, []⟩ => none
  | ⟨pos, bs, depth :: depths⟩ =>
    (Quoted.run [.interpolation (flatDepth depth depths)] bs).map (pos + ·)

lemma map_add (o : Option Nat) (pos n : Nat) : (o.map (· + n)).map (pos + ·) = o.map (pos + n + ·) := by
  rw [Option.map_map]
  congr 1
  funext m
  simp only [Function.comp_apply]
  omega

lemma flatDepth_succ (depth : Nat) (depths : List Nat) :
    flatDepth (depth + 1) depths = flatDepth depth depths + 1 := by
  cases depths with
  | nil => rfl
  | cons outer depths =>
    rw [flatDepth, flatDepth]
    omega

lemma flatDepth_zero_cons (outer : Nat) (depths : List Nat) :
    flatDepth 0 (outer :: depths) = flatDepth outer depths + 1 := by
  rw [flatDepth, Nat.zero_add]

def Tracks (s : Scanner) : Boundary → Scanner → Prop
  | .endOfText, _ => s.rest = [] ∧ s.flatClosing? = none
  | .other, t => t.nesting.length = s.nesting.length ∧ s.flatClosing? = t.flatClosing?
  | .opening, t => t.nesting.length = s.nesting.length + 1 ∧ s.flatClosing? = t.flatClosing?
  | .closing, t =>
    s.nesting.length = t.nesting.length + 1 ∧
      s.flatClosing? = if t.nesting = [] then some t.pos else t.flatClosing?

lemma Step.tracks {s t : Scanner} {b : Boundary} (h : Step s b t) (hn : s.nesting ≠ []) :
    Tracks s b t := by
  cases h with
  | ending pos nesting =>
    obtain ⟨depth, depths, rfl⟩ := List.exists_cons_of_ne_nil hn
    exact ⟨rfl, rfl⟩
  | opening pos bs nesting =>
    obtain ⟨depth, depths, rfl⟩ := List.exists_cons_of_ne_nil hn
    refine ⟨rfl, ?_⟩
    rw [Scanner.flatClosing?, Scanner.flatClosing?, flatDepth_zero_cons]
    exact map_add (Option.map (· + 1) _) pos 1 |>.trans (map_add _ (pos + 1) 1)
  | leftBrace pos bs depth depths =>
    refine ⟨rfl, ?_⟩
    rw [Scanner.flatClosing?, Scanner.flatClosing?, flatDepth_succ]
    exact map_add _ pos 1
  | looseBrace => exact absurd rfl hn
  | rightBrace pos bs depth depths =>
    refine ⟨rfl, ?_⟩
    rw [Scanner.flatClosing?, Scanner.flatClosing?, flatDepth_succ]
    exact map_add _ pos 1
  | closing pos bs depths =>
    refine ⟨rfl, ?_⟩
    cases depths with
    | nil =>
      rw [if_pos rfl, Scanner.flatClosing?]
      exact congrArg (Option.map (pos + ·)) (congrArg (Option.map (· + 1)) (Quoted.run_nil bs))
    | cons depth depths =>
      rw [if_neg (List.cons_ne_nil _ _), Scanner.flatClosing?, Scanner.flatClosing?, flatDepth_zero_cons]
      exact map_add _ pos 1
  | strayBrace => exact absurd rfl hn
  | @string pos n bs nesting hq =>
    obtain ⟨depth, depths, rfl⟩ := List.exists_cons_of_ne_nil hn
    refine ⟨rfl, ?_⟩
    rw [Scanner.flatClosing?, Quoted.run_string hq]
    exact map_add _ pos (n + 1)
  | openString hq =>
    obtain ⟨depth, depths, rfl⟩ := List.exists_cons_of_ne_nil hn
    refine ⟨rfl, ?_⟩
    rw [Scanner.flatClosing?, Quoted.run_openString hq]
    rfl
  | @neutral pos n bs nesting hne hle hb =>
    obtain ⟨depth, depths, rfl⟩ := List.exists_cons_of_ne_nil hn
    refine ⟨rfl, ?_⟩
    rw [Scanner.flatClosing?, Quoted.run_neutral _ n [] hle hb]
    exact map_add _ pos n

lemma next_tracks {s : Scanner} {b : Boundary} (ht : Text.IsTail s.rest) (hn : 0 < s.nesting.length)
    (hb : s.next.1.tag.boundary = b) : Tracks s b s.next.2 :=
  hb ▸ (next_step ht).tracks (List.ne_nil_of_length_pos hn)

lemma next_isTail {s : Scanner} (ht : Text.IsTail s.rest) : Text.IsTail s.next.2.rest := ht.drop _

end Scanner

namespace Interpolation

lemma attemptFrom_eq {size level start : Nat} {s : Scanner} (ht : Text.IsTail s.rest)
    (hl : 0 < level) (hn : s.nesting.length = level) (hs : s.pos + s.rest.length = size) :
    attemptFrom size level start s =
      match s.flatClosing? with
      | some stop => .closed ⟨start, stop⟩
      | none => .unterminated ⟨start, size⟩ := by
  -- as many levels as nestings, so the flat count closes the outermost one just when level 1 ends
  fun_induction attemptFrom size level start s with
  | case1 | case3 | case6 | case8 => omega
  | case2 start s hb level ih | case9 start s hb level ih =>
    have hf := Scanner.next_tracks ht (by omega) hb
    rw [hf.2]
    exact ih (Scanner.next_isTail ht) (Nat.succ_pos _) (by rw [hf.1, hn]) (s.next_pos.trans hs)
  | case4 start s hb =>
    have hf := Scanner.next_tracks ht (by omega) hb
    rw [hf.2, if_pos (List.eq_nil_of_length_eq_zero (by have := hf.1; omega))]
  | case5 start s hb level ih =>
    have hf := Scanner.next_tracks ht (by omega) hb
    have hn' : s.next.2.nesting.length = level + 1 := by
      have := hf.1
      omega
    rw [hf.2, if_neg (List.ne_nil_of_length_pos (by omega))]
    exact ih (Scanner.next_isTail ht) (Nat.succ_pos _) hn' (s.next_pos.trans hs)
  | case7 start s hb level =>
    have hf := Scanner.next_tracks ht (by omega) hb
    have hp : s.next.2.pos = size := by
      have hr : s.next.2.rest.length = 0 := by simp [Scanner.next, hf.1]
      have := s.next_pos.trans hs
      omega
    rw [hf.2, hp, Nat.min_self]

lemma opens_iff {bs : List UInt8} : opens bs = true ↔ ∃ rest, bs = 0x24 :: 0x7B :: rest := by
  constructor
  · intro h
    match bs with
    | [] | [_] => cases h
    | b :: c :: rest =>
      rw [opens, Bool.and_eq_true, decide_eq_true_iff, decide_eq_true_iff] at h
      exact ⟨rest, by rw [Mark.ofByte_dollar_iff.mp h.1, Mark.ofByte_leftBrace_iff.mp h.2]⟩
  · rintro ⟨rest, rfl⟩
    rfl

lemma attempt_eq {bs : List UInt8} (ht : Text.IsTail bs) (ho : opens bs = true) (pos : Nat) :
    attempt pos bs =
      match Quoted.run [.interpolation 0] (bs.drop 2) with
      | some n => .closed ⟨pos, pos + 2 + n⟩
      | none => .unterminated ⟨pos, pos + bs.length⟩ := by
  obtain ⟨rest, rfl⟩ := opens_iff.mp ho
  have hb : (Scanner.mk pos (0x24 :: 0x7B :: rest) []).next.1.tag.boundary = .opening := rfl
  have ha : attempt pos (0x24 :: 0x7B :: rest) =
      attemptFrom (pos + (rest.length + 2)) 1 pos ⟨pos + 2, rest, [0]⟩ := by
    rw [attempt, attemptFrom]
    split
    · rfl
    all_goals
      rename_i h
      rw [hb] at h
      cases h
  rw [ha, attemptFrom_eq (ht.drop 2) Nat.one_pos rfl (by simp only; omega)]
  rw [Scanner.flatClosing?]
  simp only [Scanner.flatDepth, List.drop_succ_cons, List.drop_zero]
  cases Quoted.run [.interpolation 0] rest <;> rfl

/-- The grammar closes the interpolation that opens at `start` just before `stop`. -/
def ClosesAt (text : String) (start stop : Nat) : Prop :=
  (Text.bytes text)[stop - 1]? = some 0x7D ∧
    ∃ body, Text.slice? text.toList (start + 2) (stop - 1) = some body ∧ Grammar.Body body

lemma run_interpolation_iff {cs : List Char} {n : Nat} :
    Quoted.run [.interpolation 0] (Text.encode cs) = some n ↔
      ∃ body rest, cs = body ++ '}' :: rest ∧ Grammar.Body body ∧ Text.size body + 1 = n := by
  rw [Quoted.run_eq_some_iff]
  constructor
  · rintro ⟨taken, rest, rfl, rfl, body, after, rfl, hb, rfl⟩
    exact ⟨body, rest, by simp, hb, by simp; rfl⟩
  · rintro ⟨body, rest, rfl, hb, rfl⟩
    exact ⟨body ++ ['}'], rest, by simp, by simp; rfl, body, [], rfl, hb, rfl⟩

lemma exists_of_opens_drop {cs : List Char} {start : Nat}
    (h : opens ((Text.encode cs).drop start) = true) :
    ∃ before rest, cs = before ++ '$' :: '{' :: rest ∧ Text.size before = start := by
  obtain ⟨bs, hbs⟩ := opens_iff.mp h
  obtain ⟨before, c, after, rfl, hs, hc, ha⟩ := Text.exists_char_of_narrow hbs (by decide)
  obtain ⟨between, d, rest, rfl, hz, hd, -⟩ :=
    Text.exists_char_of_narrow (n := 0) ha.symm (by decide)
  obtain rfl := Text.eq_nil_of_size_eq_zero hz
  obtain rfl : c = '$' := Char.toNat_inj.mp hc
  obtain rfl : d = '{' := Char.toNat_inj.mp hd
  exact ⟨before, rest, rfl, hs⟩

lemma closesAt_iff {text : String} {before rest : List Char}
    (ht : text.toList = before ++ '$' :: '{' :: rest) (stop : Nat) :
    ClosesAt text (Text.size before) stop ↔
      ∃ n, Quoted.run [.interpolation 0] (Text.encode rest) = some n ∧
        Text.size before + 2 + n = stop := by
  have ho : text.toList = (before ++ ['$', '{']) ++ rest := by rw [ht]; simp
  have hz : Text.size (before ++ ['$', '{']) = Text.size before + 2 := by simp; rfl
  constructor
  · rintro ⟨hc, body, hs, hb⟩
    obtain ⟨front, tail, hf, hfs, hbs⟩ := Text.slice?_eq_some_iff.mp hs
    obtain ⟨inner, last, hl, hls⟩ := (Text.getElem?_encode_eq_iff (c := '}') (by decide)).mp hc
    obtain ⟨rfl, rfl⟩ := Text.append_inj_of_size (hl.symm.trans hf) (by
      rw [hls, ← hbs, Text.size_append, hfs])
    rw [ho, List.append_assoc front] at hl
    obtain ⟨-, rfl⟩ := Text.append_inj_of_size hl (by rw [hz, hfs])
    exact ⟨_, run_interpolation_iff.mpr ⟨body, last, rfl, hb, rfl⟩, by omega⟩
  · rintro ⟨n, hn, rfl⟩
    obtain ⟨body, tail, rfl, hb, rfl⟩ := run_interpolation_iff.mp hn
    refine ⟨(Text.getElem?_encode_eq_iff (c := '}') (by decide)).mpr
      ⟨before ++ ['$', '{'] ++ body, tail, ?_, ?_⟩, body, Text.slice?_eq_some_iff.mpr
        ⟨before ++ ['$', '{'], '}' :: tail, ?_, hz, ?_⟩, hb⟩
    · rw [ho, ← List.append_assoc]
    · rw [Text.size_append, hz, ← Nat.add_assoc, Nat.add_sub_cancel]
    · rw [ho, ← List.append_assoc]
    · rw [← Nat.add_assoc, Nat.add_sub_cancel]

lemma attempt_closed_iff {text : String} {start : Nat}
    (h : opens ((Text.bytes text).drop start) = true) (stop : Nat) :
    attempt start ((Text.bytes text).drop start) = .closed ⟨start, stop⟩ ↔
      ClosesAt text start stop := by
  obtain ⟨before, rest, ht, rfl⟩ := exists_of_opens_drop h
  have hd : (Text.bytes text).drop (Text.size before) = Text.encode ('$' :: '{' :: rest) := by
    rw [Text.bytes, ht, Text.encode_append, ← Text.length_encode, List.drop_left]
  have hr : (Text.encode ('$' :: '{' :: rest)).drop 2 = Text.encode rest := rfl
  rw [closesAt_iff ht, hd, attempt_eq (Text.isTail_encode _) (hd ▸ h), hr]
  cases Quoted.run [.interpolation 0] (Text.encode rest) with
  | none => simp
  | some n => simp

lemma attempt_cases {text : String} {start : Nat}
    (h : opens ((Text.bytes text).drop start) = true) :
    (∃ stop, attempt start ((Text.bytes text).drop start) = .closed ⟨start, stop⟩) ∨
      attempt start ((Text.bytes text).drop start) =
        .unterminated ⟨start, (Text.bytes text).length⟩ := by
  have hl : start ≤ (Text.bytes text).length := by
    by_contra hl
    rw [List.drop_eq_nil_of_le (by omega)] at h
    cases h
  rw [attempt_eq ((Text.isTail_bytes text).drop start) h, List.length_drop, Nat.add_sub_cancel' hl]
  cases Quoted.run [.interpolation 0] (((Text.bytes text).drop start).drop 2) with
  | none => exact Or.inr rfl
  | some n => exact Or.inl ⟨_, rfl⟩

/-- An attempt at an opener closes exactly where the grammar does, and takes the rest of the text
exactly if the grammar closes the interpolation nowhere. -/
theorem attempt_closes_where_grammar_closes (text : String) (start : Nat)
    (h : opens ((Text.bytes text).drop start) = true) :
    (∀ stop, attempt start ((Text.bytes text).drop start) = .closed ⟨start, stop⟩ ↔
      ClosesAt text start stop) ∧
    (∀ stop stop', ClosesAt text start stop → ClosesAt text start stop' → stop = stop') ∧
    (attempt start ((Text.bytes text).drop start) =
        .unterminated ⟨start, (Text.bytes text).length⟩ ↔
      ¬ ∃ stop, ClosesAt text start stop) := by
  refine ⟨attempt_closed_iff h, ?_, ?_⟩
  · intro stop stop' hs hs'
    have he := ((attempt_closed_iff h stop).mpr hs).symm.trans ((attempt_closed_iff h stop').mpr hs')
    exact congrArg Span.stop (Attempt.closed.inj he)
  · constructor
    · rintro hu ⟨stop, hs⟩
      cases hu.symm.trans ((attempt_closed_iff h stop).mpr hs)
    · intro hn
      rcases attempt_cases h with ⟨stop, hc⟩ | hu
      · exact absurd ⟨stop, (attempt_closed_iff h stop).mp hc⟩ hn
      · exact hu

theorem attempt_closes_past_nested_strings :
    opens ((Text.bytes "é$$\x7bf(\"\x7d$\x7b\"\\\"\x7b\"\x7d\")\x7d!").drop 3) = true ∧
      attempt 3 ((Text.bytes "é$$\x7bf(\"\x7d$\x7b\"\\\"\x7b\"\x7d\")\x7d!").drop 3) = .closed ⟨3, 20⟩ ∧
      ClosesAt "é$$\x7bf(\"\x7d$\x7b\"\\\"\x7b\"\x7d\")\x7d!" 3 20 := by
  have ha : attempt 3 ((Text.bytes "é$$\x7bf(\"\x7d$\x7b\"\\\"\x7b\"\x7d\")\x7d!").drop 3) =
      .closed ⟨3, 20⟩ := by decide +kernel
  exact ⟨by decide, ha, ((attempt_closes_where_grammar_closes _ 3 (by decide)).1 20).mp ha⟩

end Interpolation

end HclLiteral
