import HclLiteral.Proofs.StringLayers
import HclLiteral.Proofs.TokenShape

namespace HclLiteral

namespace Token

variable {tag : Tag} {b : UInt8} {bs : List UInt8}

def startingWith (b : UInt8) : List Tag := spelled.filter fun tag => tag.bytes.head? == some b

lemma spelled?_cons (b : UInt8) (bs : List UInt8) :
    spelled? (b :: bs) = (startingWith b).find? fun tag => tag.bytes.tail.isPrefixOf bs := by
  have hall : ∀ tags : List Tag, (∀ tag ∈ tags, tag.bytes ≠ []) →
      tags.find? (fun tag => tag.bytes.isPrefixOf (b :: bs)) =
        (tags.filter fun tag => tag.bytes.head? == some b).find? fun tag =>
          tag.bytes.tail.isPrefixOf bs := by
    intro tags hn
    induction tags with
    | nil => rfl
    | cons tag tags ih =>
      rw [List.forall_mem_cons] at hn
      obtain ⟨x, xs, hx⟩ := List.exists_cons_of_ne_nil hn.1
      by_cases hb : x = b
      · simp [hx, hb, List.find?_cons, ih hn.2]
      · simp [hx, hb, ih hn.2]
  exact hall spelled bytes_ne_nil_of_mem_spelled

lemma startingWith_single : ∀ entry ∈ Cursor.singles,
    startingWith entry.1 = [entry.2] ∧ entry.2.bytes = [entry.1] := by decide

lemma startingWith_pair : ∀ entry ∈ Cursor.pairs,
    entry.2.1 ≠ 0 ∧ entry.2.2.2.bytes = [entry.1, entry.2.1] ∧
      (startingWith entry.1 = [entry.2.2.2, entry.2.2.1] ∧ entry.2.2.1.bytes = [entry.1] ∨
        startingWith entry.1 = [entry.2.2.2] ∧ entry.2.2.1 = .invalid ∧
          Text.charWidth entry.1 = 1) := by decide

lemma mem_tables : ∀ tag ∈ spelled, ∀ b ∈ tag.bytes.head?,
    (Cursor.singles.lookup b).isSome ∨ (Cursor.pairs.lookup b).isSome := by decide +kernel

def symbol (b : UInt8) (bs : List UInt8) : Token :=
  match spelled? (b :: bs) with
  | some tag => ⟨tag, tag.bytes.length⟩
  | none => ⟨.invalid, ((b :: bs).take (Text.charWidth b)).length⟩

lemma symbol_single (h : (b, tag) ∈ Cursor.singles) (bs : List UInt8) : symbol b bs = ⟨tag, 1⟩ := by
  obtain ⟨hs, hb⟩ := startingWith_single _ h
  simp only at hs hb
  simp [symbol, spelled?_cons, hs, hb]

lemma symbol_pair {second : UInt8} {one two : Tag} (h : (b, second, one, two) ∈ Cursor.pairs)
    (bs : List UInt8) : symbol b bs = if bs.headD 0 = second then ⟨two, 2⟩ else ⟨one, 1⟩ := by
  obtain ⟨hz, htwo, hone⟩ := startingWith_pair _ h
  simp only at hz htwo hone
  have hp : [second].isPrefixOf bs = true ↔ bs.headD 0 = second := by
    cases bs with
    | nil => exact iff_of_false Bool.false_ne_true hz.symm
    | cons x xs =>
      rw [List.isPrefixOf_iff_prefix, List.cons_prefix_cons, List.headD_cons]
      exact ⟨fun hx => hx.1.symm, fun hx => ⟨hx.symm, List.nil_prefix⟩⟩
  by_cases hx : bs.headD 0 = second
  · rw [if_pos hx]
    rcases hone with ⟨hs, -⟩ | ⟨hs, -⟩ <;> simp [symbol, spelled?_cons, hs, htwo, hp.mpr hx]
  · rw [if_neg hx]
    rcases hone with ⟨hs, hb⟩ | ⟨hs, rfl, hw⟩
    · simp [symbol, spelled?_cons, hs, htwo, hb, mt hp.mp hx]
    · simp [symbol, spelled?_cons, hs, htwo, hw, mt hp.mp hx]

lemma symbol_other (hs : Cursor.singles.lookup b = none) (hp : Cursor.pairs.lookup b = none)
    (bs : List UInt8) : symbol b bs = ⟨.invalid, ((b :: bs).take (Text.charWidth b)).length⟩ := by
  have hn : startingWith b = [] := by
    rw [startingWith, List.filter_eq_nil_iff]
    intro tag ht hb
    rcases mem_tables tag ht b (eq_of_beq hb) with h | h
    · rw [hs] at h
      cases h
    · rw [hp] at h
      cases h
  rw [symbol, spelled?_cons, hn]
  rfl

end Token

namespace Cursor

open Byte

variable {c : Cursor} {b : UInt8} {bs : List UInt8}

lemma mem_of_lookup {α : Type} {entries : List (UInt8 × α)} {a : α} (h : entries.lookup b = some a) :
    (b, a) ∈ entries := by
  obtain ⟨front, back, rfl, -⟩ := List.lookup_eq_some_iff.mp h
  exact List.mem_append_right _ List.mem_cons_self

lemma eatSymbol_eq (h : c.Fits) (hr : c.rest = b :: bs) :
    c.eatSymbol b = .ok ((Token.symbol b bs).tag, c.forward (Token.symbol b bs).length) := by
  have hone := one_le_of_cons hr
  have hnext := rest_forward_one hr
  have hf := h.forward hone
  rw [eatSymbol, h.advance hone]
  cases hs : singles.lookup b with
  | some tag =>
    rw [Token.symbol_single (mem_of_lookup hs)]
    rfl
  | none =>
    cases hp : pairs.lookup b with
    | some entry =>
      obtain ⟨second, one, two⟩ := entry
      rw [Token.symbol_pair (mem_of_lookup hp)]
      have hz := (Token.startingWith_pair _ (mem_of_lookup hp)).1
      have hhead : (c.forward 1).current = bs.headD 0 := by rw [current, hnext]
      simp only [Trap.lift_ok, ok_bind, hf.look, hhead]
      by_cases hx : bs.headD 0 = second
      · have hone' : 1 ≤ (c.forward 1).rest.length := by
          rw [hnext]
          cases bs with
          | nil => exact absurd hx.symm hz
          | cons => exact Nat.succ_le_succ (Nat.zero_le _)
        rw [if_pos hx, if_pos hx, hf.advance hone']
        rfl
      · rw [if_neg hx, if_neg hx]
        rfl
    | none =>
      have hw := (hr ▸ h.isTail : Text.IsTail (b :: bs)).charWidth_le
      rw [Token.symbol_other hs hp, List.length_take, Nat.min_eq_left hw]
      simp only [h.eatChar hr, ok_bind]
      rfl

lemma eatToken_eq (h : c.Fits) :
    c.eatToken = .ok ((Token.read c.rest).tag, c.forward (Token.read c.rest).length) := by
  cases hr : c.rest with
  | nil =>
    rw [eatToken, h.look_of_nil hr, h.looksAtEnd, isAtEnd_iff.mpr hr]
    rfl
  | cons b bs =>
    have hone := one_le_of_cons hr
    have hnext := rest_forward_one hr
    simp only [eatToken, h.look_of_cons hr, h.looksAtEnd, h.advance hone, Trap.lift_ok, ok_bind, Token.read]
    by_cases hz : b = 0
    · simp only [if_pos hz, if_neg (not_isAtEnd_of_cons hr)]
      rfl
    by_cases hblank : isBlank b = true
    · have hw : c.eatWhile isBlank = .ok c.skipBlanks := eatWhile_eq rfl h
      rw [skipBlanks, skipWhile_eq, hr, List.takeWhile_cons_of_pos hblank] at hw
      simp only [if_neg hz, if_pos hblank, hw]
      rfl
    by_cases hname : isNameStart b = true
    · have hw := eatWhile_forward (p := isNameContinue) rfl h hone
      rw [hr, Nat.add_comm 1] at hw
      simp only [if_neg hz, if_neg hblank, if_pos hname, hw]
      rfl
    by_cases hdigit : isDigit b = true
    · simp only [if_neg hz, if_neg hblank, if_neg hname, if_pos hdigit, eatNumber_eq h hr hdigit, hr]
      rfl
    by_cases hquote : b = 0x22
    · have hs : (c.forward 1).eatString [.text] =
          .ok ((c.forward 1).stringEnd (Quoted.length? (c.forward 1).rest)) :=
        eatString_eq (h.forward hone) (counted_text.mpr (counted_nil _))
      simp only [if_neg hz, if_neg hblank, if_neg hname, if_neg hdigit, if_pos hquote, hs, hnext, Token.quoted]
      cases Quoted.length? bs with
      | none => simp only [stringEnd, hnext, forward_forward, Nat.add_comm 1]
      | some n => simp only [stringEnd, forward_forward, Nat.add_comm 1]
    · simp only [if_neg hz, if_neg hblank, if_neg hname, if_neg hdigit, if_neg hquote, eatSymbol_eq h hr]
      rfl

end Cursor

lemma Nesting.enter_eq {nesting : Nesting} {tag : Tag}
    (h : tag = .leftBrace → ∀ depth ∈ nesting, depth + 1 ≤ Offset.max) :
    nesting.enter tag = .ok (nesting.resolve tag) := by
  cases nesting with
  | nil => cases tag <;> rfl
  | cons depth depths =>
    cases tag with
    | leftBrace =>
      rw [enter, Offset.add_eq_ok (h rfl depth List.mem_cons_self)]
      rfl
    | rightBrace =>
      cases depth with
      | zero => rfl
      | succ depth =>
        rw [enter, if_pos (Nat.succ_pos depth), Offset.sub_eq_ok (Nat.succ_le_succ (Nat.zero_le depth))]
        rfl
    | _ => rfl

lemma Scanner.Step.counted {s t : Scanner} {b : Boundary} (hs : Step s b t)
    (h : ∀ depth ∈ s.nesting, depth ≤ s.pos) : ∀ depth ∈ t.nesting, depth ≤ t.pos := by
  have hmono (n : Nat) : ∀ depth ∈ s.nesting, depth ≤ s.pos + n :=
    fun depth hd => Nat.le_add_right_of_le (h depth hd)
  cases hs with
  | ending => exact h
  | opening pos bs nesting => exact List.forall_mem_cons.mpr ⟨Nat.zero_le _, hmono 2⟩
  | leftBrace pos bs depth depths =>
    obtain ⟨-, ht⟩ := List.forall_mem_cons.mp (hmono 1)
    exact List.forall_mem_cons.mpr ⟨Nat.succ_le_succ (h depth List.mem_cons_self), ht⟩
  | looseBrace => exact nofun
  | rightBrace pos bs depth depths =>
    obtain ⟨hd, ht⟩ := List.forall_mem_cons.mp (hmono 1)
    exact List.forall_mem_cons.mpr ⟨Nat.le_of_succ_le hd, ht⟩
  | closing pos bs depths => exact (List.forall_mem_cons.mp (hmono 1)).2
  | strayBrace => exact nofun
  | string => exact hmono _
  | openString => exact hmono _
  | neutral => exact hmono _

namespace Reader

variable {r : Reader}

structure Valid (r : Reader) : Prop where
  fits : r.cursor.Fits
  counted : ∀ depth ∈ r.nesting, depth ≤ r.cursor.pos

def resume (r : Reader) (s : Scanner) : Reader := ⟨{ r.cursor with pos := s.pos }, s.nesting⟩

lemma Valid.next_eq (h : r.Valid) : r.next = .ok (r.scanner.next.1, r.resume r.scanner.next.2) := by
  have hle := Token.read_length_le r.cursor.rest
  have he : r.nesting.enter (Token.read r.cursor.rest).tag =
      .ok (r.nesting.resolve (Token.read r.cursor.rest).tag) := by
    apply Nesting.enter_eq
    intro htag depth hd
    -- a brace was read, so there is a byte after the position
    have hpos : 0 < r.cursor.rest.length := by
      cases hr : r.cursor.rest with
      | nil => rw [hr] at htag; cases htag
      | cons => exact Nat.succ_pos _
    have hsmall := h.fits.small
    have hcount := h.counted depth hd
    rw [Cursor.length_rest] at hpos
    omega
  rw [next, Cursor.eatToken_eq h.fits]
  simp only [ok_bind, he, Trap.lift_ok, Cursor.pos_forward, Offset.sub_eq_ok (Nat.le_add_right _ _),
    Nat.add_sub_cancel_left]
  rfl

lemma Valid.next_valid (h : r.Valid) : (r.resume r.scanner.next.2).Valid := by
  have hstep := Scanner.next_step (s := r.scanner) h.fits.isTail
  have hf := h.fits.forward (Token.read_length_le r.cursor.rest)
  exact ⟨⟨hf.inside, hf.small, hf.tail⟩, hstep.counted h.counted⟩

lemma scanner_resume (r : Reader) : (r.resume r.scanner.next.2).scanner = r.scanner.next.2 := by
  simp [resume, scanner, Scanner.next, Cursor.rest, List.drop_drop]

end Reader

end HclLiteral
