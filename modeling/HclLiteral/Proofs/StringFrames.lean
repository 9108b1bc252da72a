import HclLiteral.Proofs.Attempt
import HclLiteral.Proofs.StringLayers
import Mathlib.Algebra.Group.Nat.Defs

/-! An interpolation in a string ends at the byte where it ends outside of one. The reader of strings
counts its braces in one frame, the scanner in one number for each interpolation inside it. -/

namespace HclLiteral

namespace Quoted

def openAfter : List Frame → List UInt8 → List Frame
  | [], _ => []
  | frame :: below, [] => frame :: below
  | frame :: below, b :: bs => openAfter (step below frame (Mark.ofByte b)) bs

variable {frames : List Frame} {bs : List UInt8}

lemma run_append_right {n : Nat} (h : run frames bs = some n) (more : List UInt8) :
    run frames (bs ++ more) = some n := by
  induction bs generalizing frames n with
  | nil =>
    cases frames with
    | nil => exact (run_nil more).trans h
    | cons frame below => cases h
  | cons b bs ih =>
    cases frames with
    | nil => exact h
    | cons frame below =>
      obtain ⟨m, hm, rfl⟩ := Option.map_eq_some_iff.mp h
      rw [List.cons_append, run, ih hm]
      rfl

lemma run_take {m : Nat} (h : ∀ n, run frames bs = some n → m < n) : run frames (bs.take m) = none := by
  induction bs generalizing frames m with
  | nil =>
    cases frames with
    | nil => exact absurd (h 0 rfl) (Nat.not_lt_zero m)
    | cons frame below =>
      rw [List.take_nil]
      rfl
  | cons b bs ih =>
    cases frames with
    | nil => exact absurd (h 0 rfl) (Nat.not_lt_zero m)
    | cons frame below =>
      cases m with
      | zero => rfl
      | succ m =>
        rw [List.take_succ_cons, run, ih, Option.map_none]
        intro n hn
        apply Nat.lt_of_succ_lt_succ
        apply h (n + 1)
        rw [run, hn]
        rfl

lemma openAfter_append (h : run frames bs = none) (outer : List Frame) :
    openAfter (frames ++ outer) bs = openAfter frames bs ++ outer := by
  induction bs generalizing frames with
  | nil =>
    cases frames with
    | nil => cases h
    | cons frame below => rfl
  | cons b bs ih =>
    cases frames with
    | nil => cases h
    | cons frame below =>
      rw [List.cons_append, openAfter, openAfter, step_append]
      exact ih (Option.map_eq_none_iff.mp h)

lemma openAfter_append_take {n : Nat} (h : run frames bs = some n) (outer : List Frame) :
    openAfter (frames ++ outer) (bs.take n) = outer := by
  induction bs generalizing frames n with
  | nil =>
    cases frames with
    | nil => cases outer <;> (cases h; rfl)
    | cons frame below => cases h
  | cons b bs ih =>
    cases frames with
    | nil => cases outer <;> (cases h; rfl)
    | cons frame below =>
      obtain ⟨m, hm, rfl⟩ := Option.map_eq_some_iff.mp h
      rw [List.take_succ_cons, List.cons_append, openAfter, step_append]
      exact ih hm

def Grounded (frames : List Frame) : Prop := ∃ above braces, frames = above ++ [.interpolation braces]

lemma step_grounded {frame : Frame} {below : List Frame} (h : Grounded (frame :: below)) (m : Mark) :
    step below frame m = [] ∨ Grounded (step below frame m) := by
  obtain ⟨above, braces, hf⟩ := h
  cases above with
  | nil =>
    cases hf
    cases m with
    | rightBrace =>
      cases braces with
      | zero => exact Or.inl rfl
      | succ braces => exact Or.inr ⟨[], braces, rfl⟩
    | leftBrace => exact Or.inr ⟨[], braces + 1, rfl⟩
    | quote => exact Or.inr ⟨[.text], braces, rfl⟩
    | dollar | backslash | plain => exact Or.inr ⟨[], braces, rfl⟩
  | cons top above =>
    rw [List.cons_append] at hf
    obtain ⟨rfl, rfl⟩ := List.cons.inj hf
    rw [step_append]
    exact Or.inr ⟨_, braces, rfl⟩

lemma openAfter_grounded (hg : Grounded frames) (h : run frames bs = none) :
    Grounded (openAfter frames bs) := by
  induction bs generalizing frames with
  | nil =>
    cases frames with
    | nil => cases h
    | cons frame below => exact hg
  | cons b bs ih =>
    cases frames with
    | nil => cases h
    | cons frame below =>
      have hn : run (step below frame (Mark.ofByte b)) bs = none := Option.map_eq_none_iff.mp h
      rcases step_grounded hg (Mark.ofByte b) with hs | hs
      · rw [hs, run_nil] at hn
        cases hn
      · exact ih hs hn

def framesAt (bs : List UInt8) (cursor : Nat) : List Frame :=
  openAfter [.text] ((bs.drop 1).take (cursor - 1))

/-- The frame of an interpolation is pushed with the cursor at `pushed`, on that of the string's text. It
stays there, under those of the strings in it, until it is popped with the cursor at `popped`. -/
structure PopsAt (bs : List UInt8) (pushed popped : Nat) : Prop where
  start : framesAt bs pushed = [.interpolation 0, .text]
  inside : pushed < popped ∧ popped ≤ bs.length
  kept : ∀ cursor, pushed ≤ cursor → cursor < popped →
    ∃ above braces, framesAt bs cursor = above ++ [.interpolation braces, .text]
  stop : framesAt bs popped = [.text]

lemma framesAt_opener (bs : List UInt8) (n : Nat) :
    framesAt (0x22 :: 0x24 :: 0x7B :: bs) (n + 3) =
      openAfter ([.interpolation 0] ++ [.text]) (bs.take n) := rfl

lemma framesAt_open {n : Nat} (h : run [.interpolation 0] (bs.take n) = none) :
    ∃ above braces, framesAt (0x22 :: 0x24 :: 0x7B :: bs) (n + 3) =
      above ++ [.interpolation braces, .text] := by
  have hstart : Grounded [.interpolation 0] := ⟨[], 0, rfl⟩
  obtain ⟨above, braces, hg⟩ := openAfter_grounded hstart h
  refine ⟨above, braces, ?_⟩
  rw [framesAt_opener, openAfter_append h, hg, List.append_assoc]
  rfl

lemma popsAt_iff (bs : List UInt8) (popped : Nat) :
    PopsAt (0x22 :: 0x24 :: 0x7B :: bs) 3 popped ↔
      ∃ n, run [.interpolation 0] bs = some n ∧ n + 3 = popped := by
  have hne (above : List Frame) (braces : Nat) : [.text] ≠ above ++ [.interpolation braces, .text] := by
    intro h
    have := congrArg List.length h
    simp at this
  constructor
  · intro h
    obtain ⟨m, rfl⟩ := Nat.exists_eq_add_of_le' (Nat.le_of_lt h.inside.1)
    -- the frames cannot be closed before `m`, nor are they still open there
    have hclosed : ∀ n, run [.interpolation 0] bs = some n → ¬ n < m := by
      intro n hn hlt
      obtain ⟨above, braces, hk⟩ := h.kept (n + 3) (Nat.le_add_left 3 n) (Nat.add_lt_add_right hlt 3)
      rw [framesAt_opener, openAfter_append_take hn] at hk
      exact hne above braces hk
    have hopen : run [.interpolation 0] (bs.take m) ≠ none := by
      intro hn
      obtain ⟨above, braces, hk⟩ := framesAt_open hn
      exact hne above braces (h.stop.symm.trans hk)
    obtain ⟨n, hn, hle⟩ : ∃ n, run [.interpolation 0] bs = some n ∧ n ≤ m := by
      by_contra hall
      apply hopen
      apply run_take
      intro n hn
      by_contra hlt
      exact hall ⟨n, hn, Nat.le_of_not_lt hlt⟩
    exact ⟨n, hn, by have := hclosed n hn; omega⟩
  · rintro ⟨n, hn, rfl⟩
    have hpos : 0 < n := by
      cases bs with
      | nil => cases hn
      | cons b bs =>
        obtain ⟨m, -, rfl⟩ := Option.map_eq_some_iff.mp hn
        exact Nat.succ_pos m
    refine ⟨rfl, ⟨by omega, Nat.add_le_add_right (run_le hn) 3⟩, ?_, ?_⟩
    · intro cursor hle hlt
      obtain ⟨m, rfl⟩ := Nat.exists_eq_add_of_le' hle
      apply framesAt_open
      apply run_take
      intro k hk
      rw [hn] at hk
      cases hk
      exact Nat.lt_of_add_lt_add_right hlt
    · rw [framesAt_opener, openAfter_append_take hn]

lemma length?_opener (bs more : List UInt8) {n : Nat} (h : run [.interpolation 0] bs = some n)
    (hn : n = bs.length) : length? (0x24 :: 0x7B :: bs ++ 0x22 :: more) = some (n + 3) := by
  have hs : length? (0x24 :: 0x7B :: bs ++ 0x22 :: more) =
      ((run ([.interpolation 0] ++ [.text]) (bs ++ 0x22 :: more)).map (· + 1)).map (· + 1) := rfl
  have hq : run [.text] (0x22 :: more) = some 1 := by
    rw [run]
    exact congrArg (Option.map (· + 1)) (run_nil more)
  rw [hs, run_append, run_append_right h, Option.bind_some, hn, List.drop_left, hq]
  simp only [Option.map_some]
  congr 1
  omega

lemma length?_openOpener {bs : List UInt8} (h : run [.interpolation 0] bs = none) :
    length? (0x24 :: 0x7B :: bs) = none := by
  have hs : length? (0x24 :: 0x7B :: bs) =
      ((run ([.interpolation 0] ++ [.text]) bs).map (· + 1)).map (· + 1) := rfl
  rw [hs, run_append, h]
  rfl

end Quoted

namespace Cursor

/-- The loop over the layers of a string whose opening quote comes first pushes an interpolation on the
string's text with the cursor at `pushed`, and pops it with the cursor at `popped`. -/
structure PopsAt (bs : List UInt8) (pushed popped : Nat) : Prop where
  push : turn ⟨bs, 1⟩ [.text] = .ok (.inr ([.interpolation 0, .text], ⟨bs, pushed⟩))
  pop : Keeps [.interpolation 0, .text] ⟨bs, pushed⟩ [.text] ⟨bs, popped⟩

lemma turn_opener {c : Cursor} {bs : List UInt8} (h : c.Fits) (hr : c.rest = 0x24 :: 0x7B :: bs) :
    c.turn [.text] = .ok (.inr ([.interpolation 0, .text], c.forward 2)) := by
  have hone := one_le_of_cons hr
  have hnext := rest_forward_one hr
  have hf := h.forward hone
  have hseek : c.seekStringDelimiter = c := by
    rw [seekStringDelimiter, Nat.min_eq_left h.inside, skipWhile_eq, hr]
    rfl
  have hdollar : Mark.ofByte 0x24 = .dollar := rfl
  rw [turn, seek_eq h.small, hseek, ok_bind, delimiterTurn, h.look_of_cons hr, h.advance hone, ok_bind, hdollar]
  simp only [Trap.lift_ok, ok_bind, hf.look_of_cons hnext, hf.advance (one_le_of_cons hnext)]
  rfl

lemma popsAt_iff {bs : List UInt8} (h : Fits ⟨0x22 :: 0x24 :: 0x7B :: bs, 1⟩) (popped : Nat) :
    PopsAt (0x22 :: 0x24 :: 0x7B :: bs) 3 popped ↔ Quoted.PopsAt (0x22 :: 0x24 :: 0x7B :: bs) 3 popped := by
  have hf : Fits ⟨0x22 :: 0x24 :: 0x7B :: bs, 3⟩ := h.forward (n := 2) (Nat.le_add_left 2 bs.length)
  rw [Quoted.popsAt_iff]
  constructor
  · intro hp
    obtain ⟨n, hn, hstop⟩ := (keeps_iff hf).mp hp.pop
    exact ⟨n, hn, (Nat.add_comm n 3).trans (congrArg pos hstop).symm⟩
  · rintro ⟨n, hn, rfl⟩
    exact ⟨turn_opener h rfl, (keeps_iff hf).mpr ⟨n, hn, by rw [Nat.add_comm]; rfl⟩⟩

end Cursor

lemma Scanner.run_of_whole {bs : List UInt8} {tag : Tag} (hb : bs ≠ []) (hf : Token.IsFixed tag)
    (h : Token.read bs = ⟨tag, bs.length⟩) : (ofBytes bs).run.1 = [⟨tag, bs.length⟩] := by
  have hn : (ofBytes bs).next = (⟨tag, bs.length⟩, ⟨0 + bs.length, [], []⟩) := by
    simp only [next, ofBytes, h, resolve_fixed hf, List.drop_length]
  have he : (Scanner.mk (0 + bs.length) [] []).run = ([], ⟨0 + bs.length, [], []⟩) := by
    rw [run, if_pos rfl]
  rw [run, if_neg (show (ofBytes bs).rest ≠ [] from hb), hn, he]

lemma Token.read_quote (bs : List UInt8) : read (0x22 :: bs) = quoted bs := rfl

namespace Interpolation

lemma opens_of_attempt_closed {pos : Nat} {bs : List UInt8} {span : Span} (ht : Text.IsTail bs)
    (h : attempt pos bs = .closed span) : opens bs = true := by
  have hst := Scanner.next_step (s := ⟨pos, bs, []⟩) ht
  rw [attempt, attemptFrom] at h
  split at h
  · rename_i hb
    rw [hb] at hst
    cases hst
    rfl
  · cases h
  · cases h
  · cases h

lemma attempt_eq_closed_iff (bs : List UInt8) (ht : Text.IsTail (0x24 :: 0x7B :: bs)) (stop : Nat) :
    attempt 0 (0x24 :: 0x7B :: bs) = .closed ⟨0, stop⟩ ↔
      ∃ n, Quoted.run [.interpolation 0] bs = some n ∧ n + 2 = stop := by
  rw [attempt_eq ht rfl, List.drop_succ_cons, List.drop_succ_cons, List.drop_zero]
  cases Quoted.run [.interpolation 0] bs with
  | none => simp
  | some n => simp [Nat.add_comm 2]

lemma bytes_quote (text : String) : Text.bytes ("\"" ++ text) = 0x22 :: Text.bytes text := by
  rw [Text.bytes, String.toList_append, Text.encode_append]
  rfl

lemma bytes_quote_right (text : String) : Text.bytes (text ++ "\"") = Text.bytes text ++ [0x22] := by
  rw [Text.bytes, String.toList_append, Text.encode_append]
  rfl

lemma bytes_opener (text : String) : Text.bytes ("$\x7b" ++ text) = 0x24 :: 0x7B :: Text.bytes text := by
  rw [Text.bytes, String.toList_append, Text.encode_append]
  rfl

lemma tokens_quote_of_closed {text : String}
    (h : attempt 0 (Text.bytes text) = .closed ⟨0, (Text.bytes text).length⟩) :
    tokens ("\"" ++ text ++ "\"") = [⟨.string, (Text.bytes text).length + 2⟩] := by
  obtain ⟨bs, hbs⟩ := opens_iff.mp (opens_of_attempt_closed (Text.isTail_bytes text) h)
  have ht := Text.isTail_bytes text
  rw [hbs] at h ht
  obtain ⟨n, hn, hl⟩ := (attempt_eq_closed_iff bs ht _).mp h
  have hlen : n = bs.length := Nat.add_right_cancel hl
  have hq := Quoted.length?_opener bs [] hn hlen
  have hread : Token.read (0x22 :: (0x24 :: 0x7B :: bs ++ [0x22])) =
      ⟨.string, (0x22 :: (0x24 :: 0x7B :: bs ++ [0x22])).length⟩ := by
    rw [Token.read_quote, Token.quoted, hq, hlen]
    simp
  rw [tokens, bytes_quote_right, bytes_quote, hbs]
  refine (Scanner.run_of_whole (List.cons_ne_nil _ _) (by decide) hread).trans ?_
  simp

lemma tokens_quote_of_unterminated {text : String} {span : Span} (ho : opens (Text.bytes text) = true)
    (h : attempt 0 (Text.bytes text) = .unterminated span) :
    tokens ("\"" ++ text) = [⟨.openString, (Text.bytes text).length + 1⟩] := by
  obtain ⟨bs, hbs⟩ := opens_iff.mp ho
  have ht := Text.isTail_bytes text
  rw [hbs] at h ht
  have hrun : Quoted.run [.interpolation 0] bs = none := by
    cases hr : Quoted.run [.interpolation 0] bs with
    | none => rfl
    | some n =>
      rw [(attempt_eq_closed_iff bs ht (n + 2)).mpr ⟨n, hr, rfl⟩] at h
      cases h
  have hread : Token.read (0x22 :: 0x24 :: 0x7B :: bs) =
      ⟨.openString, (0x22 :: 0x24 :: 0x7B :: bs).length⟩ := by
    rw [Token.read_quote, Token.quoted, Quoted.length?_openOpener hrun]
    rfl
  rw [tokens, bytes_quote, hbs]
  exact Scanner.run_of_whole (List.cons_ne_nil _ _) (by decide) hread

lemma bytes_quotedOpener (text : String) :
    Text.bytes ("\"$\x7b" ++ text) = 0x22 :: 0x24 :: 0x7B :: Text.bytes text := by
  rw [Text.bytes, String.toList_append, Text.encode_append]
  rfl

lemma attempt_closed_iff_popsAt (text : String) (stop : Nat) :
    attempt 0 (Text.bytes ("$\x7b" ++ text)) = .closed ⟨0, stop⟩ ↔
      Quoted.PopsAt (Text.bytes ("\"$\x7b" ++ text)) 3 (stop + 1) := by
  have ht := Text.isTail_bytes ("$\x7b" ++ text)
  rw [bytes_opener] at ht ⊢
  rw [bytes_quotedOpener, attempt_eq_closed_iff _ ht, Quoted.popsAt_iff]
  simp only [← Nat.add_right_cancel_iff (k := stop) (n := 1), Nat.add_assoc]

lemma popsAt_layers_iff {text : String} (h : (Text.bytes ("\"$\x7b" ++ text)).length ≤ Offset.max) (popped : Nat) :
    Cursor.PopsAt (Text.bytes ("\"$\x7b" ++ text)) 3 popped ↔
      Quoted.PopsAt (Text.bytes ("\"$\x7b" ++ text)) 3 popped := by
  have ht := Text.isTail_bytes ("\"$\x7b" ++ text)
  rw [bytes_quotedOpener] at h ht ⊢
  exact Cursor.popsAt_iff ⟨Nat.le_add_left 1 _, h, ht⟩ popped

/-- Behind a quote, an interpolation ends at the same byte, for the frames and for the layers of the loop that
reads the string. So a text that is one interpolation is one string between quotes, and one that stays open
leaves the string open. -/
theorem string_frame_pops_where_attempt_closes :
    (∀ (text : String) (stop : Nat),
      attempt 0 (Text.bytes ("$\x7b" ++ text)) = .closed ⟨0, stop⟩ ↔
        Quoted.PopsAt (Text.bytes ("\"$\x7b" ++ text)) 3 (stop + 1)) ∧
    (∀ (text : String) (stop : Nat), (Text.bytes ("\"$\x7b" ++ text)).length < 2 ^ 32 →
      (attempt 0 (Text.bytes ("$\x7b" ++ text)) = .closed ⟨0, stop⟩ ↔
        Cursor.PopsAt (Text.bytes ("\"$\x7b" ++ text)) 3 (stop + 1))) ∧
    (∀ text, attempt 0 (Text.bytes text) = .closed ⟨0, (Text.bytes text).length⟩ →
      tokens ("\"" ++ text ++ "\"") = [⟨.string, (Text.bytes text).length + 2⟩]) ∧
    ∀ text span, opens (Text.bytes text) = true →
      attempt 0 (Text.bytes text) = .unterminated span →
      tokens ("\"" ++ text) = [⟨.openString, (Text.bytes text).length + 1⟩] := by
  refine ⟨attempt_closed_iff_popsAt, ?_, fun text => tokens_quote_of_closed,
    fun text span => tokens_quote_of_unterminated⟩
  intro text stop hl
  rw [attempt_closed_iff_popsAt, popsAt_layers_iff (Nat.le_of_lt_succ hl)]

theorem string_frame_pops_past_inner_string :
    (Quoted.PopsAt (Text.bytes ("\"$\x7b" ++ "f(\"\x7d$\x7bx\x7d\")\x7d!")) 3 14 ∧
      (Text.bytes ("\"$\x7b" ++ "f(\"\x7d$\x7bx\x7d\")\x7d!")).length < 2 ^ 32 ∧
      Cursor.PopsAt (Text.bytes ("\"$\x7b" ++ "f(\"\x7d$\x7bx\x7d\")\x7d!")) 3 14 ∧
      tokens ("\"" ++ "$\x7bf(\"\x7d$\x7bx\x7d\")\x7d" ++ "\"") = [⟨.string, 15⟩]) ∧
    attempt 0 (Text.bytes "$\x7bf(\"\x7d") = .unterminated ⟨0, 6⟩ ∧
      tokens ("\"" ++ "$\x7bf(\"\x7d") = [⟨.openString, 7⟩] := by
  have hp : attempt 0 (Text.bytes ("$\x7b" ++ "f(\"\x7d$\x7bx\x7d\")\x7d!")) = .closed ⟨0, 13⟩ := by
    decide +kernel
  have hsmall : (Text.bytes ("\"$\x7b" ++ "f(\"\x7d$\x7bx\x7d\")\x7d!")).length < 2 ^ 32 := by decide +kernel
  have hl : (Text.bytes "$\x7bf(\"\x7d$\x7bx\x7d\")\x7d").length = 13 := by decide +kernel
  have hc : attempt 0 (Text.bytes "$\x7bf(\"\x7d$\x7bx\x7d\")\x7d") = .closed ⟨0, 13⟩ := by
    decide +kernel
  have ho : opens (Text.bytes "$\x7bf(\"\x7d") = true := by decide +kernel
  have hm : (Text.bytes "$\x7bf(\"\x7d").length = 6 := by decide +kernel
  have hu : attempt 0 (Text.bytes "$\x7bf(\"\x7d") = .unterminated ⟨0, 6⟩ := by decide +kernel
  obtain ⟨hframe, hlayer, hstring, hopen⟩ := string_frame_pops_where_attempt_closes
  have hs := hstring _ (hl.symm ▸ hc)
  have hn := hopen _ _ ho hu
  rw [hl] at hs
  rw [hm] at hn
  exact ⟨⟨(hframe _ _).mp hp, hsmall, (hlayer _ _ hsmall).mp hp, hs⟩, hu, hn⟩

end Interpolation

end HclLiteral
