import HclLiteral.Proofs.TokenMatch
import HclLiteral.Token.Reader
import Mathlib.Data.List.TakeWhile

namespace HclLiteral

lemma ok_bind {α β ε : Type} (a : α) (f : α → Except ε β) : (Except.ok a >>= f) = f a := rfl

namespace Text

lemma IsTail.head_cases {b : UInt8} {bs : List UInt8} (h : IsTail (b :: bs)) :
    IsContinuation b ∨ ∃ c cs, b :: bs = encode (c :: cs) := by
  obtain ⟨cs, n, h⟩ := h
  induction cs generalizing n with
  | nil => simp at h
  | cons c cs ih =>
    rcases Nat.eq_zero_or_pos n with rfl | hp
    · exact Or.inr ⟨c, cs, h⟩
    · rcases Nat.lt_or_ge n c.utf8Size with hn | hn
      · obtain ⟨d, rest, he, hd⟩ := drop_inside hp hn (encode cs)
        rw [encode_cons, he] at h
        obtain ⟨rfl, -⟩ := List.cons.inj h
        exact Or.inl hd
      · exact ih _ (drop_beyond hn cs ▸ h)

lemma IsTail.charWidth_le {b : UInt8} {bs : List UInt8} (h : IsTail (b :: bs)) :
    charWidth b ≤ (b :: bs).length := by
  rcases h.head_cases with hb | ⟨c, cs, he⟩
  · rw [charWidth_of_lt hb.2]
    exact Nat.succ_le_succ (Nat.zero_le _)
  · rw [Token.charWidth_head he.symm, he, length_encode, size_cons]
    exact Nat.le_add_right _ _

end Text

namespace Cursor

def forward (c : Cursor) (n : Nat) : Cursor := { c with pos := c.pos + n }

/-- The cursor is in a text, or at its end, whose offsets are all 32-bit numbers. -/
structure Fits (c : Cursor) : Prop where
  inside : c.pos ≤ c.source.length
  small : c.source.length ≤ Offset.max
  tail : Text.IsTail c.source

variable {c : Cursor} {b : UInt8} {bs : List UInt8} {n : Nat} {p : UInt8 → Bool}

@[simp] lemma pos_forward (c : Cursor) (n : Nat) : (c.forward n).pos = c.pos + n := rfl

@[simp] lemma source_forward (c : Cursor) (n : Nat) : (c.forward n).source = c.source := rfl

@[simp] lemma rest_forward (c : Cursor) (n : Nat) : (c.forward n).rest = c.rest.drop n := by
  simp [rest, forward, List.drop_drop]

@[simp] lemma forward_zero (c : Cursor) : c.forward 0 = c := rfl

@[simp] lemma forward_forward (c : Cursor) (m n : Nat) : (c.forward m).forward n = c.forward (m + n) := by
  simp [forward, Nat.add_assoc]

lemma length_rest (c : Cursor) : c.rest.length = c.source.length - c.pos := List.length_drop

lemma isAtEnd_iff : c.isAtEnd = true ↔ c.rest = [] := by
  simp [isAtEnd, rest, List.drop_eq_nil_iff]

lemma current_of_nil (h : c.rest = []) : c.current = 0 := by
  rw [current, h, List.headD_nil]

lemma current_of_cons (h : c.rest = b :: bs) : c.current = b := by
  rw [current, h, List.headD_cons]

lemma rest_forward_one (h : c.rest = b :: bs) : (c.forward 1).rest = bs := by
  rw [rest_forward, h, List.drop_succ_cons, List.drop_zero]

lemma one_le_of_cons (h : c.rest = b :: bs) : 1 ≤ c.rest.length := by
  rw [h]
  exact Nat.succ_le_succ (Nat.zero_le _)

lemma not_isAtEnd_of_cons (h : c.rest = b :: bs) : c.isAtEnd ≠ true := by
  rw [ne_eq, isAtEnd_iff, h]
  exact List.cons_ne_nil b bs

lemma byteAt_eq (hn : n ≤ c.source.length) : c.byteAt n = .ok ((c.source.drop n).headD 0) := by
  rw [byteAt]
  rcases Nat.lt_or_eq_of_le hn with hlt | rfl
  · rw [List.getElem?_append_left hlt, List.getElem?_eq_getElem hlt, List.drop_eq_getElem_cons hlt]
    rfl
  · rw [List.getElem?_append_right (Nat.le_refl _), Nat.sub_self, List.drop_length]
    rfl

lemma peek_of_cons (h : c.rest = b :: bs) : c.peek = bs.headD 0 := by
  rw [peek, h, List.tail_cons]

lemma lookAhead_eq (h : c.rest = b :: bs) : c.lookAhead = .ok c.peek := by
  have hlen := length_rest c
  rw [h, List.length_cons] at hlen
  rw [lookAhead, byteAt_eq (by omega), peek_of_cons h, ← rest_forward_one h]
  rfl

lemma lookAhead_of_cons (h : c.rest = b :: bs) : c.lookAhead = .ok (bs.headD 0) := by
  rw [lookAhead_eq h, peek_of_cons h]

namespace Fits

lemma isTail (h : c.Fits) : Text.IsTail c.rest := h.tail.drop c.pos

lemma forward (h : c.Fits) (hn : n ≤ c.rest.length) : (c.forward n).Fits := by
  have hi := h.inside
  rw [length_rest] at hn
  exact ⟨by simp only [pos_forward, source_forward]; omega, h.small, h.tail⟩

lemma advance (h : c.Fits) (hn : n ≤ c.rest.length) : c.advance n = .ok (c.forward n) := by
  have hi := h.inside
  have hs := h.small
  rw [length_rest] at hn
  rw [Cursor.advance, Offset.add_eq_ok (by omega)]
  rfl

lemma advanceChar (h : c.Fits) (hr : c.rest = b :: bs) :
    c.advanceChar = .ok (c.forward (Text.charWidth b)) := by
  have hw : Text.charWidth b ≤ c.rest.length := hr ▸ (hr ▸ h.isTail).charWidth_le
  have hl := length_rest c
  have hi := h.inside
  rw [Cursor.advanceChar, current_of_cons hr, h.advance hw, ok_bind, pos_forward,
    Nat.min_eq_left (by omega)]
  rfl

lemma look (h : c.Fits) : c.look = .ok c.current := byteAt_eq h.inside

lemma look_of_nil (h : c.Fits) (hr : c.rest = []) : c.look = .ok 0 := by
  rw [h.look, current_of_nil hr]

lemma look_of_cons (h : c.Fits) (hr : c.rest = b :: bs) : c.look = .ok b := by
  rw [h.look, current_of_cons hr]

lemma looksAtEnd (h : c.Fits) : c.looksAtEnd = .ok c.isAtEnd := by
  rw [Cursor.looksAtEnd, h.look, ok_bind]
  cases hr : c.rest with
  | nil =>
    rw [current_of_nil hr, isAtEnd_iff.mpr hr]
    rfl
  | cons b bs =>
    rw [Bool.eq_false_iff.mpr (not_isAtEnd_of_cons hr), Bool.and_false]
    rfl

lemma eatChar (h : c.Fits) (hr : c.rest = b :: bs) : c.eatChar = .ok (c.forward (Text.charWidth b)) := by
  rw [Cursor.eatChar, h.look, ok_bind, h.advanceChar hr, Trap.lift_ok]

end Fits

lemma skipWhile_eq (c : Cursor) (p : UInt8 → Bool) :
    c.skipWhile p = c.forward (c.rest.takeWhile p).length := rfl

lemma eatWhile_eq (hp : p 0 = false) (h : c.Fits) : c.eatWhile p = .ok (c.skipWhile p) := by
  refine Trap.loop_eq Fits (fun c => c.skipWhile p) ?_ h
  intro c h
  rw [whileTurn]
  cases hr : c.rest with
  | nil =>
    left
    rw [h.look_of_nil hr, ok_bind, hp, skipWhile_eq, hr]
    rfl
  | cons b bs =>
    have hle := one_le_of_cons hr
    rw [h.look_of_cons hr, ok_bind, h.advance hle]
    by_cases hb : p b = true
    · right
      refine ⟨c.forward 1, if_pos hb, ?_, h.forward hle, ?_⟩
      · have hsmall := h.small
        rw [length_rest] at hle
        rw [pos_forward]
        omega
      · rw [skipWhile_eq, skipWhile_eq, rest_forward_one hr, forward_forward, hr,
          List.takeWhile_cons_of_pos hb, List.length_cons, Nat.add_comm]
    · left
      rw [if_neg hb, skipWhile_eq, hr, List.takeWhile_cons_of_neg hb]
      rfl

lemma eatWhile_forward (hp : p 0 = false) (h : c.Fits) (hn : n ≤ c.rest.length) :
    (c.forward n).eatWhile p = .ok (c.forward (n + ((c.rest.drop n).takeWhile p).length)) := by
  rw [eatWhile_eq hp (h.forward hn), skipWhile_eq, rest_forward, forward_forward]

lemma headD_iff (hp : p 0 = false) (bs : List UInt8) :
    p (bs.headD 0) = true ↔ 0 < (bs.takeWhile p).length := by
  cases bs with
  | nil => simp [hp]
  | cons b bs => by_cases hb : p b = true <;> simp [hb]

open Byte

lemma eatFraction_eq (h : c.Fits) : c.eatFraction = .ok (c.forward (Number.fraction c.rest)) := by
  unfold eatFraction
  cases hr : c.rest with
  | nil =>
    rw [h.look_of_nil hr]
    rfl
  | cons b bs =>
    have hle := one_le_of_cons hr
    have hd : isDigit (bs.headD 0) = true ↔ 0 < Number.digits bs := headD_iff rfl bs
    simp only [h.look_of_cons hr, lookAhead_of_cons hr, h.advance hle, Trap.lift_ok, ok_bind, hd]
    by_cases hb : b = 0x2E
    · by_cases hp : 0 < Number.digits bs
      · rw [if_pos hb, if_pos hp, eatWhile_forward rfl h hle, hr, Number.fraction, if_pos ⟨hb, hp⟩]
        rfl
      · rw [if_pos hb, if_neg hp, Number.fraction, if_neg fun hn => hp hn.2]
        rfl
    · rw [if_neg hb, Number.fraction, if_neg fun hn => hb hn.1]
      rfl

lemma eatSign_eq (h : c.Fits) : c.eatSign = .ok (c.forward (Number.sign c.rest)) := by
  unfold eatSign
  cases hr : c.rest with
  | nil =>
    rw [h.look_of_nil hr]
    rfl
  | cons b bs =>
    rw [h.look_of_cons hr, ok_bind, h.advance (one_le_of_cons hr), Trap.lift_ok, Number.sign]
    split <;> rfl

lemma eatExponent_eq (h : c.Fits) : c.eatExponent = .ok (c.forward (Number.exponent c.rest)) := by
  unfold eatExponent
  cases hr : c.rest with
  | nil =>
    rw [h.look_of_nil hr]
    rfl
  | cons b bs =>
    have hle := one_le_of_cons hr
    have hdrop := rest_forward_one hr
    have hs : (c.forward 1).eatSign = .ok (c.forward (1 + Number.sign bs)) := by
      rw [eatSign_eq (h.forward hle), hdrop, forward_forward]
    have hle' : 1 + Number.sign bs ≤ c.rest.length := by
      have := Number.sign_le bs
      simp only [hr, List.length_cons]
      omega
    have hd : isDigit (c.forward (1 + Number.sign bs)).current = true ↔
        0 < Number.digits (bs.drop (Number.sign bs)) := by
      rw [current, ← forward_forward, rest_forward, hdrop]
      exact headD_iff rfl _
    simp only [h.look_of_cons hr, h.advance hle, Trap.lift_ok, ok_bind, hs, (h.forward hle').look, hd,
      Number.exponent]
    by_cases he : b = 0x65 ∨ b = 0x45
    · by_cases hp : 0 < Number.digits (bs.drop (Number.sign bs))
      · rw [if_pos he, if_pos hp, if_pos ⟨he, hp⟩, eatWhile_forward rfl h hle', hr, Nat.add_comm 1,
          List.drop_succ_cons]
        rfl
      · rw [if_pos he, if_neg hp, if_neg fun hn => hp hn.2]
        rfl
    · rw [if_neg he, if_neg fun hn => he hn.1]
      rfl

lemma hexadecimal_pos_iff (b : UInt8) (bs : List UInt8) :
    0 < Number.hexadecimal (b :: bs) ↔
      b = 0x30 ∧ (bs.headD 0 = 0x78 ∨ bs.headD 0 = 0x58) ∧ isHexDigit ((bs.drop 1).headD 0) = true := by
  rw [headD_iff rfl]
  cases bs with
  | nil => simp [Number.hexadecimal]
  | cons d bs =>
    simp only [Number.hexadecimal, List.headD_cons, List.drop_succ_cons, List.drop_zero]
    split
    · rename_i hh
      exact iff_of_true (by omega) hh
    · rename_i hh
      exact iff_of_false (Nat.lt_irrefl 0) hh

lemma hexadecimal_eq {bs : List UInt8} (h : 0 < Number.hexadecimal bs) :
    2 ≤ bs.length ∧ Number.hexadecimal bs = 2 + ((bs.drop 2).takeWhile isHexDigit).length := by
  unfold Number.hexadecimal at h ⊢
  split at h
  · dsimp only at h
    split at h
    · rename_i hh
      exact ⟨Nat.le_add_left 2 _, if_pos hh⟩
    · cases h
  · cases h

lemma looksHexadecimal_eq (h : c.Fits) (first : UInt8) :
    c.looksHexadecimal first = .ok (decide (0 < Number.hexadecimal (first :: c.rest))) := by
  simp only [hexadecimal_pos_iff, looksHexadecimal]
  by_cases hf : first = 0x30
  · cases hr : c.rest with
    | nil =>
      rw [if_pos hf, h.look_of_nil hr, hf]
      rfl
    | cons b bs =>
      simp only [if_pos hf, h.look_of_cons hr, lookAhead_of_cons hr, ok_bind, List.headD_cons,
        List.drop_succ_cons, List.drop_zero]
      by_cases hb : b = 0x78 ∨ b = 0x58
      · rw [if_pos hb]
        simp only [hf, hb, true_and, Bool.decide_eq_true]
        rfl
      · rw [if_neg hb]
        simp only [hb, false_and, and_false, decide_false]
        rfl
  · rw [if_neg hf]
    simp only [hf, false_and, decide_false]
    rfl

lemma eatNumber_eq (h : c.Fits) (hr : c.rest = b :: bs) (hb : isDigit b = true) :
    c.eatNumber = .ok (c.forward (Number.length c.rest)) := by
  have hle := one_le_of_cons hr
  have hhex : (c.forward 1).looksHexadecimal b = .ok (decide (0 < Number.hexadecimal c.rest)) := by
    rw [looksHexadecimal_eq (h.forward hle), rest_forward_one hr, hr]
  unfold eatNumber Number.length
  simp only [h.look_of_cons hr, h.advance hle, Trap.lift_ok, ok_bind, hhex, decide_eq_true_eq]
  split
  · rename_i hh
    obtain ⟨hle', he⟩ := hexadecimal_eq hh
    have hone : 1 ≤ (c.forward 1).rest.length := by
      rw [rest_forward, List.length_drop]
      omega
    rw [(h.forward hle).advance hone, Trap.lift_ok, ok_bind, forward_forward, eatWhile_forward rfl h hle', he]
  · have hd : 1 + ((c.rest.drop 1).takeWhile isDigit).length = Number.digits c.rest := by
      rw [Number.digits, hr, List.takeWhile_cons_of_pos hb, List.length_cons, Nat.add_comm]
      rfl
    have hle' := Number.digits_le c.rest
    have hf := Number.fraction_le (c.forward (Number.digits c.rest)).rest
    rw [eatWhile_forward rfl h hle, hd, ok_bind, eatFraction_eq (h.forward hle'), ok_bind,
      eatExponent_eq ((h.forward hle').forward hf)]
    simp only [rest_forward, forward_forward, Number.decimal]

end Cursor

end HclLiteral
