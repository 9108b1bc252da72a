import HclLiteral.Proofs.Utf8
import HclLiteral.Token.Scanner
import Mathlib.Data.List.TakeWhile

/-! What a token may be made of: one brace, an opener, a string, or bytes that hold no brace and no
quote. From this, all that one token can do to a scanner. -/

namespace HclLiteral

namespace Byte

def IsNeutral (b : UInt8) : Prop := b ≠ 0x7B ∧ b ≠ 0x7D ∧ b ≠ 0x22

instance (b : UInt8) : Decidable (IsNeutral b) := inferInstanceAs (Decidable (_ ∧ _ ∧ _))

lemma isNeutral_of_class {p : UInt8 → Bool} (hl : p 0x7B = false) (hr : p 0x7D = false)
    (hq : p 0x22 = false) {b : UInt8} (hb : p b = true) : IsNeutral b := by
  refine ⟨?_, ?_, ?_⟩ <;> rintro rfl
  · exact Bool.false_ne_true (hl.symm.trans hb)
  · exact Bool.false_ne_true (hr.symm.trans hb)
  · exact Bool.false_ne_true (hq.symm.trans hb)

end Byte

namespace Token

open Byte

def Neutral (n : Nat) (bs : List UInt8) : Prop := ∀ x ∈ bs.take n, IsNeutral x

lemma neutral_zero (bs : List UInt8) : Neutral 0 bs := by simp [Neutral]

lemma neutral_succ {n : Nat} {b : UInt8} {bs : List UInt8} (hb : IsNeutral b)
    (h : Neutral n bs) : Neutral (n + 1) (b :: bs) := by
  intro x hx
  rw [List.take_succ_cons, List.mem_cons] at hx
  rcases hx with rfl | hx
  · exact hb
  · exact h x hx

lemma neutral_add {m n : Nat} {bs : List UInt8} (hm : Neutral m bs) (hn : Neutral n (bs.drop m)) :
    Neutral (m + n) bs := by
  intro x hx
  rw [List.take_add, List.mem_append] at hx
  exact hx.elim (hm x) (hn x)

lemma neutral_takeWhile {p : UInt8 → Bool} (hl : p 0x7B = false) (hr : p 0x7D = false)
    (hq : p 0x22 = false) (bs : List UInt8) : Neutral (bs.takeWhile p).length bs := by
  intro x hx
  rw [← List.prefix_iff_eq_take.mp (List.takeWhile_prefix p)] at hx
  exact isNeutral_of_class hl hr hq (List.mem_takeWhile_imp hx)

lemma neutral_digits (bs : List UInt8) : Neutral (Number.digits bs) bs :=
  neutral_takeWhile rfl rfl rfl bs

lemma neutral_fraction (bs : List UInt8) : Neutral (Number.fraction bs) bs := by
  cases bs with
  | nil => exact neutral_zero []
  | cons b bs =>
    rw [Number.fraction]
    split
    · rename_i h
      obtain ⟨rfl, -⟩ := h
      rw [Nat.add_comm]
      exact neutral_succ (by decide) (neutral_digits bs)
    · exact neutral_zero _

lemma neutral_sign (bs : List UInt8) : Neutral (Number.sign bs) bs := by
  cases bs with
  | nil => exact neutral_zero []
  | cons b bs =>
    rw [Number.sign]
    split
    · rename_i h
      rcases h with rfl | rfl <;> exact neutral_succ (by decide) (neutral_zero bs)
    · exact neutral_zero _

lemma neutral_exponent (bs : List UInt8) : Neutral (Number.exponent bs) bs := by
  cases bs with
  | nil => exact neutral_zero []
  | cons b bs =>
    simp only [Number.exponent]
    split
    · rename_i h
      have hd := neutral_add (neutral_sign bs) (neutral_digits (bs.drop (Number.sign bs)))
      rw [Nat.add_assoc, Nat.add_comm]
      rcases h.1 with rfl | rfl <;> exact neutral_succ (by decide) hd
    · exact neutral_zero _

lemma neutral_hexadecimal (bs : List UInt8) : Neutral (Number.hexadecimal bs) bs := by
  unfold Number.hexadecimal
  split
  · rename_i zero letter bs
    dsimp only
    split
    · rename_i h
      obtain ⟨rfl, hl, -⟩ := h
      rw [Nat.add_comm]
      have hd := neutral_takeWhile (p := isHexDigit) rfl rfl rfl bs
      rcases hl with rfl | rfl <;> exact neutral_succ (by decide) (neutral_succ (by decide) hd)
    · exact neutral_zero _
  · exact neutral_zero _

lemma neutral_number (bs : List UInt8) : Neutral (Number.length bs) bs := by
  unfold Number.length
  split
  · exact neutral_hexadecimal bs
  · exact neutral_add (neutral_add (neutral_digits bs) (neutral_fraction _)) (neutral_exponent _)

def IsFixed (tag : Tag) : Prop :=
  tag.boundary = .other ∧ tag ≠ .leftBrace ∧ tag ≠ .rightBrace

instance (tag : Tag) : Decidable (IsFixed tag) := inferInstanceAs (Decidable (_ ∧ _ ∧ _))

inductive Shape : List UInt8 → Token → Prop
  | ending : Shape [] ⟨.endOfText, 0⟩
  | opening (bs : List UInt8) : Shape (0x24 :: 0x7B :: bs) ⟨.interpolationStart, 2⟩
  | leftBrace (bs : List UInt8) : Shape (0x7B :: bs) ⟨.leftBrace, 1⟩
  | rightBrace (bs : List UInt8) : Shape (0x7D :: bs) ⟨.rightBrace, 1⟩
  | quoted (bs : List UInt8) : Shape (0x22 :: bs) (quoted bs)
  | neutral {bs : List UInt8} {tag : Tag} {n : Nat} :
      bs ≠ [] → IsFixed tag → Neutral n bs → Shape bs ⟨tag, n⟩

lemma spelled_cases : ∀ tag ∈ spelled,
    tag = .interpolationStart ∨ tag = .leftBrace ∨ tag = .rightBrace ∨
      IsFixed tag ∧ ∀ x ∈ tag.bytes, IsNeutral x := by decide +kernel

lemma spelled?_shape {bs : List UInt8} {tag : Tag} (h : spelled? bs = some tag) :
    Shape bs ⟨tag, tag.bytes.length⟩ := by
  have hp := List.find?_some h
  obtain ⟨rest, rfl⟩ := List.isPrefixOf_iff_prefix.mp hp
  rcases spelled_cases tag (List.mem_of_find?_eq_some h) with rfl | rfl | rfl | ⟨hf, hn⟩
  · exact .opening rest
  · exact .leftBrace rest
  · exact .rightBrace rest
  · refine .neutral ?_ hf ?_
    · have := bytes_ne_nil_of_mem_spelled tag (List.mem_of_find?_eq_some h)
      simp [this]
    · simpa only [Neutral, List.take_left] using hn

-- A byte that begins no spelling is none of the delimiters, which all begin one.
lemma isNeutral_of_spelled?_none {b : UInt8} {bs : List UInt8} (hq : b ≠ 0x22)
    (h : spelled? (b :: bs) = none) : IsNeutral b := by
  refine ⟨?_, ?_, hq⟩ <;> rintro rfl
  · exact List.find?_eq_none.mp h .leftBrace (by decide) rfl
  · exact List.find?_eq_none.mp h .rightBrace (by decide) rfl

lemma isNeutral_wide {b : UInt8} (h : 0x80 ≤ b) : IsNeutral b := by
  refine ⟨?_, ?_, ?_⟩ <;> rintro rfl <;> exact absurd h (by decide)

lemma invalid_neutral {b : UInt8} {bs : List UInt8} (h : Text.IsTail (b :: bs)) (hb : IsNeutral b) :
    Neutral ((b :: bs).take (Text.charWidth b)).length (b :: bs) := by
  obtain ⟨n, hn⟩ : ∃ n, Text.charWidth b = n + 1 :=
    ⟨Text.charWidth b - 1, by have := Text.charWidth_pos b; omega⟩
  have hc := h.continued
  rw [hn, Nat.add_sub_cancel] at hc
  rw [hn, List.take_succ_cons, List.length_cons, List.length_take]
  refine neutral_succ hb fun x hx => isNeutral_wide (hc x ?_)
  rwa [← List.take_eq_take_min] at hx

theorem read_shape {bs : List UInt8} (h : Text.IsTail bs) : Shape bs (read bs) := by
  cases bs with
  | nil => exact .ending
  | cons b bs =>
    simp only [read]
    split
    · rename_i hb
      subst hb
      exact .neutral (List.cons_ne_nil _ _) (by decide) (neutral_succ (by decide) (neutral_zero bs))
    split
    · rename_i hb
      exact .neutral (List.cons_ne_nil _ _) (by decide) (neutral_succ
        (isNeutral_of_class (p := isBlank) rfl rfl rfl hb) (neutral_takeWhile rfl rfl rfl bs))
    split
    · rename_i hb
      exact .neutral (List.cons_ne_nil _ _) (by decide) (neutral_succ
        (isNeutral_of_class (p := isNameStart) rfl rfl rfl hb) (neutral_takeWhile rfl rfl rfl bs))
    split
    · exact .neutral (List.cons_ne_nil _ _) (by decide) (neutral_number (b :: bs))
    split
    · rename_i hb
      subst hb
      exact .quoted bs
    split
    · rename_i hs
      exact spelled?_shape hs
    · rename_i hq _ hs
      exact .neutral (List.cons_ne_nil _ _) (by decide)
        (invalid_neutral h (isNeutral_of_spelled?_none hq hs))

end Token

namespace Scanner

lemma resolve_fixed {tag : Tag} (h : Token.IsFixed tag) (nesting : Nesting) :
    nesting.resolve tag = (tag, nesting) := by
  obtain ⟨hb, hl, hr⟩ := h
  unfold Nesting.resolve
  split
  · cases hb
  · exact absurd rfl hl
  · exact absurd rfl hr
  · exact absurd rfl hr
  · exact absurd rfl hr
  · rfl

inductive Step : Scanner → Boundary → Scanner → Prop
  | ending (pos : Nat) (nesting : Nesting) :
      Step ⟨pos, [], nesting⟩ .endOfText ⟨pos, [], nesting⟩
  | opening (pos : Nat) (bs : List UInt8) (nesting : Nesting) :
      Step ⟨pos, 0x24 :: 0x7B :: bs, nesting⟩ .opening ⟨pos + 2, bs, 0 :: nesting⟩
  | leftBrace (pos : Nat) (bs : List UInt8) (depth : Nat) (depths : Nesting) :
      Step ⟨pos, 0x7B :: bs, depth :: depths⟩ .other ⟨pos + 1, bs, (depth + 1) :: depths⟩
  | looseBrace (pos : Nat) (bs : List UInt8) : Step ⟨pos, 0x7B :: bs, []⟩ .other ⟨pos + 1, bs, []⟩
  | rightBrace (pos : Nat) (bs : List UInt8) (depth : Nat) (depths : Nesting) :
      Step ⟨pos, 0x7D :: bs, (depth + 1) :: depths⟩ .other ⟨pos + 1, bs, depth :: depths⟩
  | closing (pos : Nat) (bs : List UInt8) (depths : Nesting) :
      Step ⟨pos, 0x7D :: bs, 0 :: depths⟩ .closing ⟨pos + 1, bs, depths⟩
  | strayBrace (pos : Nat) (bs : List UInt8) :
      Step ⟨pos, 0x7D :: bs, []⟩ .closing ⟨pos + 1, bs, []⟩
  | string {pos n : Nat} {bs : List UInt8} {nesting : Nesting} : Quoted.length? bs = some n →
      Step ⟨pos, 0x22 :: bs, nesting⟩ .other ⟨pos + (n + 1), bs.drop n, nesting⟩
  | openString {pos : Nat} {bs : List UInt8} {nesting : Nesting} : Quoted.length? bs = none →
      Step ⟨pos, 0x22 :: bs, nesting⟩ .other ⟨pos + (bs.length + 1), [], nesting⟩
  | neutral {pos n : Nat} {bs : List UInt8} {nesting : Nesting} :
      bs ≠ [] → n ≤ bs.length → Token.Neutral n bs →
      Step ⟨pos, bs, nesting⟩ .other ⟨pos + n, bs.drop n, nesting⟩

theorem next_step {s : Scanner} (h : Text.IsTail s.rest) : Step s s.next.1.tag.boundary s.next.2 := by
  obtain ⟨pos, rest, nesting⟩ := s
  have hs := Token.read_shape h
  have hle := Token.read_length_le rest
  have he : (Scanner.mk pos rest nesting).next =
      (⟨(nesting.resolve (Token.read rest).tag).1, (Token.read rest).length⟩,
        ⟨pos + (Token.read rest).length, rest.drop (Token.read rest).length,
          (nesting.resolve (Token.read rest).tag).2⟩) := rfl
  rw [he]
  generalize Token.read rest = token at hs hle
  cases hs with
  | ending =>
    cases nesting with
    | nil => exact .ending pos []
    | cons depth depths => exact .ending pos (depth :: depths)
  | opening bs => exact .opening pos bs nesting
  | leftBrace bs =>
    cases nesting with
    | nil => exact .looseBrace pos bs
    | cons depth depths => exact .leftBrace pos bs depth depths
  | rightBrace bs =>
    match nesting with
    | [] => exact .strayBrace pos bs
    | 0 :: depths => exact .closing pos bs depths
    | (depth + 1) :: depths => exact .rightBrace pos bs depth depths
  | quoted bs =>
    unfold Token.quoted
    cases hq : Quoted.length? bs with
    | none =>
      dsimp only
      rw [resolve_fixed (by decide), List.drop_succ_cons, List.drop_length]
      exact .openString hq
    | some n =>
      dsimp only
      rw [resolve_fixed (by decide), List.drop_succ_cons]
      exact .string hq
  | neutral hne hf hn =>
    dsimp only
    rw [resolve_fixed hf, hf.1]
    exact .neutral hne hle hn

end Scanner

end HclLiteral
