import HclLiteral.Proofs.ReaderMoves

namespace HclLiteral

namespace Quoted

variable {frames middle after : List Frame} {b : UInt8} {bs : List UInt8} {m n : Nat}

/-- The first `n` bytes take the frames to others, and the rest is read with those. -/
def Reads (frames : List Frame) (bs : List UInt8) (n : Nat) (after : List Frame) : Prop :=
  n ≤ bs.length ∧ run frames bs = (run after (bs.drop n)).map (· + n)

namespace Reads

lemma byte (frame : Frame) (below : List Frame) (b : UInt8) (bs : List UInt8) :
    Reads (frame :: below) (b :: bs) 1 (step below frame (Mark.ofByte b)) :=
  ⟨Nat.succ_le_succ (Nat.zero_le _), rfl⟩

lemma trans (h : Reads frames bs m middle) (h' : Reads middle (bs.drop m) n after) :
    Reads frames bs (m + n) after := by
  obtain ⟨hle, he⟩ := h
  obtain ⟨hle', he'⟩ := h'
  rw [List.length_drop] at hle'
  refine ⟨by omega, ?_⟩
  rw [he, he', Option.map_map, List.drop_drop]
  congr 1
  funext k
  simp only [Function.comp_apply]
  omega

lemma char (ht : Text.IsTail (b :: bs)) (frame : Frame) (below : List Frame) :
    Reads (frame :: below) (b :: bs) (Text.charWidth b) (step below frame (Mark.ofByte b)) := by
  refine ⟨ht.charWidth_le, ?_⟩
  rcases UInt8.lt_or_le b 0xC0 with hb | hb
  · rw [Text.charWidth_of_lt hb]
    rfl
  · -- a lead byte is no mark, and neither are the bytes that it announces
    obtain ⟨next, hn, hp⟩ := step_plain below frame
    obtain ⟨w, hw⟩ := Nat.exists_eq_succ_of_ne_zero (Text.charWidth_pos b).ne'
    have hle := ht.charWidth_le
    have hr := run_plain hp ht.continued (bs.drop (Text.charWidth b - 1))
    simp only [hw, List.length_cons, Nat.succ_eq_add_one, Nat.add_sub_cancel] at hle hr
    rw [List.take_append_drop, List.length_take, Nat.min_eq_left (by omega)] at hr
    rw [run, Mark.ofByte_wide (UInt8.le_trans (by decide) hb), hn, hr, Option.map_map, hw]
    rfl

end Reads

end Quoted

namespace Cursor

open Quoted

def Layer.frame : Layer → Frame
  | .text => .text
  | .interpolation braces => .interpolation braces

def Counted (layers : List Layer) (pos : Nat) : Prop :=
  ∀ braces, .interpolation braces ∈ layers → braces ≤ pos

inductive Turned (c : Cursor) (layers : List Layer) : StringTurn → Prop
  | on {after : List Layer} {n : Nat} : 0 < n →
      Reads (layers.map Layer.frame) c.rest n (after.map Layer.frame) → Counted after (c.pos + n) →
      Turned c layers (.inr (after, c.forward n))
  | off : run (layers.map Layer.frame) c.rest = none →
      Turned c layers (.inl (.openString, c.forward c.rest.length))

variable {c : Cursor} {layers below : List Layer} {braces n : Nat} {b : UInt8} {bs : List UInt8}

lemma Counted.mono {m : Nat} (h : Counted layers n) (hle : n ≤ m) : Counted layers m :=
  fun braces hb => Nat.le_trans (h braces hb) hle

lemma counted_nil (n : Nat) : Counted [] n := fun _ h => absurd h List.not_mem_nil

lemma counted_text : Counted (.text :: below) n ↔ Counted below n := by
  simp [Counted]

lemma counted_interpolation :
    Counted (.interpolation braces :: below) n ↔ braces ≤ n ∧ Counted below n := by
  simp [Counted, or_imp, forall_and]

lemma step_text_of_not_delimiter {below : List Frame} (h : isStringDelimiter b = false) :
    step below .text (Mark.ofByte b) = .text :: below := by
  unfold isStringDelimiter at h
  cases hm : Mark.ofByte b <;> simp_all [step, textStep]

lemma seek_eq (h : c.source.length ≤ Offset.max) : c.seek = .ok c.seekStringDelimiter := by
  have hmin := Nat.min_le_right c.pos c.source.length
  rw [seek, Text.bytesFrom?, if_pos hmin, Trap.require_some, ok_bind, advance, Offset.add_eq_ok]
  · rfl
  · have hle := (List.takeWhile_prefix (fun b => !isStringDelimiter b)
      (l := c.source.drop (min c.pos c.source.length))).length_le
    rw [List.length_drop] at hle
    simp only
    omega

lemma seek_spec (h : c.Fits) :
    ∃ n, c.seek = .ok (c.forward n) ∧ (∀ below, Reads (.text :: below) c.rest n (.text :: below)) ∧
      ∀ b ∈ (c.rest.drop n).head?, isStringDelimiter b = true := by
  let p (b : UInt8) : Bool := !isStringDelimiter b
  have hle : (c.rest.takeWhile p).length ≤ c.rest.length := (List.takeWhile_sublist _).length_le
  have hsplit : c.rest.takeWhile p ++ c.rest.dropWhile p = c.rest := List.takeWhile_append_dropWhile
  have hdrop : c.rest.drop (c.rest.takeWhile p).length = c.rest.dropWhile p :=
    calc c.rest.drop (c.rest.takeWhile p).length
        = (c.rest.takeWhile p ++ c.rest.dropWhile p).drop (c.rest.takeWhile p).length := by rw [hsplit]
      _ = c.rest.dropWhile p := List.drop_left
  refine ⟨(c.rest.takeWhile p).length, ?_, fun below => ⟨hle, ?_⟩, ?_⟩
  · rw [seek_eq h.small, seekStringDelimiter, Nat.min_eq_left h.inside]
    rfl
  · have hsteady : ∀ x ∈ c.rest.takeWhile p, step below .text (Mark.ofByte x) = .text :: below := by
      intro x hx
      apply step_text_of_not_delimiter
      simpa [p] using List.mem_takeWhile_imp hx
    rw [hdrop, ← run_steady hsteady, hsplit]
  · intro b hb
    have hh := List.head?_dropWhile_not p c.rest
    rw [← hdrop, Option.mem_def.mp hb] at hh
    simpa [p] using hh

lemma Turned.after_steady {result : StringTurn}
    (hr : Reads (layers.map Layer.frame) c.rest n (layers.map Layer.frame))
    (h : Turned (c.forward n) layers result) : Turned c layers result := by
  cases h with
  | @on after m hpos hm hc =>
    rw [rest_forward] at hm
    rw [pos_forward, Nat.add_assoc] at hc
    rw [forward_forward]
    exact .on (Nat.add_pos_right n hpos) (hr.trans hm) hc
  | off hn =>
    have hlen : n + (c.rest.drop n).length = c.rest.length := by
      rw [List.length_drop]
      exact Nat.add_sub_cancel' hr.1
    rw [rest_forward] at hn ⊢
    rw [forward_forward, hlen]
    exact .off (by rw [hr.2, hn]; rfl)

lemma run_dollar {below : List Frame} (h : Mark.ofByte (bs.headD 0) ≠ .leftBrace) :
    run (.dollar :: below) bs = run (.text :: below) bs := by
  cases bs with
  | nil => rfl
  | cons d ds =>
    rw [List.headD_cons] at h
    rw [run, run]
    cases hm : Mark.ofByte d with
    | leftBrace => exact absurd hm h
    | _ => rfl

lemma delimiterTurn_spec (h : c.Fits) (hc : Counted below c.pos)
    (hd : ∀ b ∈ c.rest.head?, isStringDelimiter b = true) :
    ∃ result, delimiterTurn below c = .ok result ∧ Turned c (.text :: below) result := by
  have hcount (k : Nat) : Counted below (c.pos + k) := hc.mono (Nat.le_add_right _ _)
  cases hr : c.rest with
  | nil =>
    have hoff : Turned c (.text :: below) (.inl (.openString, c.forward c.rest.length)) :=
      .off (by rw [hr]; rfl)
    rw [hr] at hoff
    exact ⟨_, by rw [delimiterTurn, h.look_of_nil hr]; rfl, hoff⟩
  | cons b bs =>
    have hone := one_le_of_cons hr
    have hnext := rest_forward_one hr
    have hf := h.forward hone
    have hb : isStringDelimiter b = true := hd b (by rw [hr]; rfl)
    have hbyte := Reads.byte .text (below.map Layer.frame) b bs
    rw [delimiterTurn, h.look_of_cons hr, ok_bind, h.advance hone]
    cases hm : Mark.ofByte b <;> rw [hm] at hbyte
    case quote => exact ⟨_, rfl, .on Nat.one_pos (hr ▸ hbyte) (hcount 1)⟩
    case backslash =>
      simp only [Trap.lift_ok, ok_bind, hf.looksAtEnd]
      cases bs with
      | nil =>
        rw [if_pos (isAtEnd_iff.mpr hnext)]
        exact ⟨_, rfl, .on Nat.one_pos (hr ▸ hbyte) (counted_text.mpr (hcount 1))⟩
      | cons d ds =>
        have hchar := Reads.char (hnext ▸ hf.isTail) .escaped (below.map Layer.frame)
        rw [if_neg (not_isAtEnd_of_cons hnext), hf.eatChar hnext, forward_forward]
        exact ⟨_, rfl, .on (Nat.add_pos_left Nat.one_pos _) (hr ▸ hbyte.trans hchar)
          (counted_text.mpr (hcount _))⟩
    case dollar =>
      have hhead : (c.forward 1).current = bs.headD 0 := by rw [current, hnext]
      simp only [Trap.lift_ok, ok_bind, hf.look, hhead]
      by_cases hl : Mark.ofByte (bs.headD 0) = .leftBrace
      · cases bs with
        | nil => exact absurd hl (by decide)
        | cons d ds =>
          have hbrace := Reads.byte .dollar (below.map Layer.frame) d ds
          rw [List.headD_cons] at hl
          rw [hl] at hbrace
          rw [List.headD_cons, if_pos hl, hf.advance (one_le_of_cons hnext), forward_forward]
          refine ⟨_, rfl, .on Nat.two_pos (hr ▸ hbyte.trans hbrace) ?_⟩
          exact counted_interpolation.mpr ⟨Nat.zero_le _, counted_text.mpr (hcount 2)⟩
      · -- nothing opens here, and the text goes on at the byte behind the dollar sign
        rw [if_neg hl]
        refine ⟨_, rfl, .on Nat.one_pos ⟨hone, ?_⟩ (counted_text.mpr (hcount 1))⟩
        rw [hr]
        exact hbyte.2.trans (congrArg _ (run_dollar hl))
    all_goals
      rw [isStringDelimiter, hm] at hb
      cases hb

lemma interpolationTurn_spec (h : c.Fits) (hi : braces ≤ c.pos) (hc : Counted below c.pos) :
    ∃ result, interpolationTurn braces below c = .ok result ∧
      Turned c (.interpolation braces :: below) result := by
  have hcount (k : Nat) : Counted below (c.pos + k) := hc.mono (Nat.le_add_right _ _)
  cases hr : c.rest with
  | nil =>
    have hoff : Turned c (.interpolation braces :: below) (.inl (.openString, c.forward c.rest.length)) :=
      .off (by rw [hr]; rfl)
    rw [hr] at hoff
    refine ⟨_, ?_, hoff⟩
    rw [interpolationTurn, h.look_of_nil hr, h.looksAtEnd, isAtEnd_iff.mpr hr]
    rfl
  | cons b bs =>
    have hone := one_le_of_cons hr
    have hbyte := Reads.byte (.interpolation braces) (below.map Layer.frame) b bs
    have hchar := Reads.char (hr ▸ h.isTail) (.interpolation braces) (below.map Layer.frame)
    rw [interpolationTurn, h.look_of_cons hr, ok_bind, h.advance hone, h.eatChar hr, h.looksAtEnd]
    cases hm : Mark.ofByte b <;> rw [hm] at hbyte hchar
    case quote =>
      refine ⟨_, rfl, .on Nat.one_pos (hr ▸ hbyte) ?_⟩
      exact counted_text.mpr (counted_interpolation.mpr ⟨Nat.le_add_right_of_le hi, hcount 1⟩)
    case leftBrace =>
      -- the brace is one byte more than those that were counted, and it is in the text
      have hlen := length_rest c
      have hsmall := h.small
      rw [Offset.add_eq_ok (by omega)]
      refine ⟨_, rfl, .on Nat.one_pos (hr ▸ hbyte) ?_⟩
      exact counted_interpolation.mpr ⟨Nat.succ_le_succ hi, hcount 1⟩
    case rightBrace =>
      simp only [Trap.lift_ok, ok_bind]
      cases braces with
      | zero => exact ⟨_, rfl, .on Nat.one_pos (hr ▸ hbyte) (hcount 1)⟩
      | succ braces =>
        rw [if_neg (Nat.succ_ne_zero braces), Offset.sub_eq_ok (Nat.succ_le_succ (Nat.zero_le _))]
        refine ⟨_, rfl, .on Nat.one_pos (hr ▸ hbyte) ?_⟩
        exact counted_interpolation.mpr ⟨by omega, hcount 1⟩
    all_goals
      simp only [if_neg (not_isAtEnd_of_cons hr), ok_bind]
      refine ⟨_, rfl, .on (Text.charWidth_pos b) (hr ▸ hchar) ?_⟩
      exact counted_interpolation.mpr ⟨Nat.le_add_right_of_le hi, hcount _⟩

lemma turn_spec {layer : Layer} (h : c.Fits) (hc : Counted (layer :: below) c.pos) :
    ∃ result, c.turn (layer :: below) = .ok result ∧ Turned c (layer :: below) result := by
  cases layer with
  | text =>
    obtain ⟨n, hseek, hreads, hhead⟩ := seek_spec h
    have hn := hreads (below.map Layer.frame)
    have hc' := (counted_text.mp hc).mono (Nat.le_add_right c.pos n)
    obtain ⟨result, hd, ht⟩ := delimiterTurn_spec (h.forward hn.1) hc' (by rwa [rest_forward])
    exact ⟨result, by rw [turn, hseek, ok_bind, hd], ht.after_steady hn⟩
  | interpolation braces =>
    obtain ⟨hi, hb⟩ := counted_interpolation.mp hc
    exact interpolationTurn_spec h hi hb

def stringEnd (c : Cursor) : Option Nat → Tag × Cursor
  | some n => (.string, c.forward n)
  | none => (.openString, c.forward c.rest.length)

lemma eatString_eq (h : c.Fits) (hc : Counted layers c.pos) :
    eatString layers c = .ok (c.stringEnd (run (layers.map Layer.frame) c.rest)) := by
  refine Trap.loop_eq (fun s : List Layer × Cursor => s.2.Fits ∧ Counted s.1 s.2.pos)
    (fun s => s.2.stringEnd (run (s.1.map Layer.frame) s.2.rest)) ?_ ⟨h, hc⟩
  rintro ⟨layers, c⟩ ⟨h, hc⟩
  cases layers with
  | nil =>
    left
    rw [List.map_nil, run_nil]
    rfl
  | cons layer below =>
    obtain ⟨result, hr, ht⟩ := turn_spec h hc
    cases ht with
    | @on after n hpos hreads hcount =>
      right
      refine ⟨_, hr, ?_, ⟨h.forward hreads.1, hcount⟩, ?_⟩
      · have hinside := (h.forward hreads.1).inside
        have hsmall : c.source.length ≤ Offset.max := h.small
        simp only [pos_forward, source_forward] at hinside ⊢
        omega
      · rw [hreads.2, rest_forward]
        cases run (after.map Layer.frame) (c.rest.drop n) with
        | none =>
          have hlen : n + (c.rest.length - n) = c.rest.length := Nat.add_sub_cancel' hreads.1
          simp [stringEnd, hlen]
        | some m => simp [stringEnd, Nat.add_comm]
    | off hn =>
      left
      rw [hr, hn]
      rfl

lemma ok_of_bind {α β ε : Type} {x : Except ε α} {f : α → Except ε β} {b : β} (h : x >>= f = .ok b) :
    ∃ a, x = .ok a ∧ f a = .ok b := by
  cases x with
  | error e => cases h
  | ok a => exact ⟨a, rfl, h⟩

def StringTurn.over (outer : List Layer) : StringTurn → StringTurn
  | .inl done => .inl done
  | .inr (layers, c) => .inr (layers ++ outer, c)

lemma delimiterTurn_append (below outer : List Layer) (c : Cursor) :
    delimiterTurn (below ++ outer) c = (delimiterTurn below c).map (StringTurn.over outer) := by
  unfold delimiterTurn
  cases c.look with
  | error => rfl
  | ok b =>
    simp only [ok_bind]
    cases c.advance 1 with
    | error => cases Mark.ofByte b <;> rfl
    | ok next =>
      simp only [Trap.lift_ok, ok_bind]
      cases Mark.ofByte b with
      | quote | leftBrace | rightBrace | plain => rfl
      | backslash =>
        cases next.looksAtEnd with
        | error => rfl
        | ok atEnd => cases atEnd <;> cases next.eatChar <;> rfl
      | dollar =>
        cases next.look with
        | error => rfl
        | ok d =>
          simp only [ok_bind]
          by_cases hd : Mark.ofByte d = .leftBrace
          · simp only [if_pos hd]
            cases next.advance 1 <;> rfl
          · simp only [if_neg hd]
            rfl

lemma interpolationTurn_append (braces : Nat) (below outer : List Layer) (c : Cursor) :
    interpolationTurn braces (below ++ outer) c =
      (interpolationTurn braces below c).map (StringTurn.over outer) := by
  unfold interpolationTurn
  cases c.look with
  | error => rfl
  | ok b =>
    simp only [ok_bind]
    cases Mark.ofByte b with
    | quote => cases c.advance 1 <;> rfl
    | leftBrace => cases Offset.add braces 1 <;> cases c.advance 1 <;> rfl
    | rightBrace =>
      cases c.advance 1 with
      | error => rfl
      | ok next =>
        simp only [Trap.lift_ok, ok_bind]
        by_cases hz : braces = 0
        · simp only [if_pos hz]
          rfl
        · simp only [if_neg hz]
          cases Offset.sub braces 1 <;> rfl
    | dollar | backslash | plain =>
      cases c.looksAtEnd with
      | error => rfl
      | ok atEnd => cases atEnd <;> cases c.eatChar <;> rfl

lemma turn_append (c : Cursor) (layer : Layer) (below outer : List Layer) :
    c.turn (layer :: below ++ outer) = (c.turn (layer :: below)).map (StringTurn.over outer) := by
  cases layer with
  | text =>
    simp only [List.cons_append, turn, delimiterTurn_append]
    cases c.seek <;> rfl
  | interpolation braces => exact interpolationTurn_append braces below outer c

/-- Turns of the loop, each from layers where an interpolation lies on the text of the string. -/
inductive Keeps : List Layer → Cursor → List Layer → Cursor → Prop
  | refl (layers : List Layer) (c : Cursor) : Keeps layers c layers c
  | turn {above middle last : List Layer} {braces : Nat} {c next stop : Cursor} :
      c.turn (above ++ [.interpolation braces, .text]) = .ok (.inr (middle, next)) →
      Keeps middle next last stop → Keeps (above ++ [.interpolation braces, .text]) c last stop

def Grounded (layers : List Layer) : Prop := ∃ above braces, layers = above ++ [.interpolation braces]

lemma Grounded.exists_cons (hg : Grounded layers) : ∃ layer below, layers = layer :: below := by
  obtain ⟨above, braces, rfl⟩ := hg
  exact List.exists_cons_of_ne_nil (List.append_ne_nil_of_right_ne_nil above (List.cons_ne_nil _ _))

lemma interpolationTurn_grounded {after : List Layer} {next : Cursor}
    (h : interpolationTurn braces [] c = .ok (.inr (after, next))) : after = [] ∨ Grounded after := by
  obtain ⟨b, -, h⟩ := ok_of_bind h
  split at h
  · obtain ⟨d, -, h⟩ := ok_of_bind h
    cases h
    exact Or.inr ⟨[.text], braces, rfl⟩
  · obtain ⟨more, -, h⟩ := ok_of_bind h
    obtain ⟨d, -, h⟩ := ok_of_bind h
    cases h
    exact Or.inr ⟨[], more, rfl⟩
  · obtain ⟨d, -, h⟩ := ok_of_bind h
    split at h
    · cases h
      exact Or.inl rfl
    · obtain ⟨fewer, -, h⟩ := ok_of_bind h
      cases h
      exact Or.inr ⟨[], fewer, rfl⟩
  all_goals
    obtain ⟨atEnd, -, h⟩ := ok_of_bind h
    split at h
    · cases h
    · obtain ⟨d, -, h⟩ := ok_of_bind h
      cases h
      exact Or.inr ⟨[], braces, rfl⟩

lemma turn_grounded {after : List Layer} {next : Cursor} (hg : Grounded layers)
    (h : c.turn layers = .ok (.inr (after, next))) : after = [] ∨ Grounded after := by
  obtain ⟨above, braces, rfl⟩ := hg
  cases above with
  | nil => exact interpolationTurn_grounded h
  | cons layer above =>
    rw [turn_append] at h
    cases hr : c.turn (layer :: above) with
    | error e =>
      rw [hr] at h
      cases h
    | ok result =>
      rw [hr] at h
      cases result with
      | inl => cases h
      | inr s =>
        cases h
        exact Or.inr ⟨s.1, braces, rfl⟩

lemma Keeps.of_turn {after last : List Layer} {next stop : Cursor} (hg : Grounded layers)
    (h : c.turn layers = .ok (.inr (after, next))) (hk : Keeps (after ++ [.text]) next last stop) :
    Keeps (layers ++ [.text]) c last stop := by
  obtain ⟨layer, below, he⟩ := hg.exists_cons
  have happend : c.turn (layers ++ [.text]) = .ok (.inr (after ++ [.text], next)) := by
    rw [he] at h ⊢
    rw [turn_append, h]
    rfl
  obtain ⟨above, braces, rfl⟩ := hg
  rw [List.append_assoc] at happend ⊢
  exact .turn happend hk

lemma keeps_of_run (h : c.Fits) (hg : Grounded layers) (hc : Counted layers c.pos)
    (hr : run (layers.map Layer.frame) c.rest = some n) :
    Keeps (layers ++ [.text]) c [.text] (c.forward n) := by
  -- each turn reads a byte at least, so fewer are left until the interpolation is popped
  induction n using Nat.strongRecOn generalizing layers c with
  | ind n ih =>
    obtain ⟨layer, below, rfl⟩ := hg.exists_cons
    obtain ⟨result, hturn, ht⟩ := turn_spec h hc
    cases ht with
    | off hn =>
      rw [hn] at hr
      cases hr
    | @on after k hpos hreads hcount =>
      rw [hreads.2] at hr
      obtain ⟨m, hm, rfl⟩ := Option.map_eq_some_iff.mp hr
      apply Keeps.of_turn hg hturn
      rcases turn_grounded hg hturn with rfl | hg'
      · rw [List.map_nil, run_nil] at hm
        cases hm
        rw [Nat.zero_add]
        exact .refl _ _
      · rw [← rest_forward] at hm
        have hkept := ih m (Nat.lt_add_of_pos_right hpos) (h.forward hreads.1) hg' hcount hm
        rwa [forward_forward, Nat.add_comm k] at hkept

lemma run_of_keeps {stack last : List Layer} {stop : Cursor} (hk : Keeps stack c last stop)
    (hlast : last = [.text]) (hs : stack = layers ++ [.text]) (h : c.Fits) (hc : Counted layers c.pos) :
    ∃ n, run (layers.map Layer.frame) c.rest = some n ∧ stop = c.forward n := by
  induction hk generalizing layers with
  | refl stack c =>
    obtain rfl : layers = [] := List.append_left_eq_self.mp (hs.symm.trans hlast)
    exact ⟨0, run_nil _, rfl⟩
  | @turn above middle last braces c next stop hturn _ ih =>
    have hlayers : layers = above ++ [.interpolation braces] := by
      apply (List.append_left_inj [.text]).mp
      rw [← hs, List.append_assoc]
      rfl
    obtain ⟨layer, below, rfl⟩ := Grounded.exists_cons ⟨above, braces, hlayers⟩
    obtain ⟨result, hr, hres⟩ := turn_spec h hc
    -- the text of the string lies below what the turn is about
    rw [hs, turn_append, hr] at hturn
    cases hres with
    | off => cases hturn
    | @on after k hpos hreads hcount =>
      cases hturn
      obtain ⟨m, hm, rfl⟩ := ih hlast rfl (h.forward hreads.1) hcount
      refine ⟨m + k, ?_, by rw [forward_forward, Nat.add_comm]⟩
      rw [hreads.2, ← rest_forward, hm]
      rfl

lemma keeps_iff (h : c.Fits) {stop : Cursor} :
    Keeps [.interpolation 0, .text] c [.text] stop ↔
      ∃ n, run [.interpolation 0] c.rest = some n ∧ stop = c.forward n := by
  have hg : Grounded [.interpolation 0] := ⟨[], 0, rfl⟩
  have hc : Counted [.interpolation 0] c.pos := counted_interpolation.mpr ⟨Nat.zero_le _, counted_nil _⟩
  have hstack : [.interpolation 0, .text] = [Layer.interpolation 0] ++ [.text] := rfl
  rw [hstack]
  constructor
  · intro hk
    exact run_of_keeps hk rfl rfl h hc
  · rintro ⟨n, hn, rfl⟩
    exact keeps_of_run h hg hc hn

end Cursor

end HclLiteral
