import HclLiteral.Text.Basic
import HclLiteral.Text.Utf8
import Mathlib.Tactic.Lemma

namespace HclLiteral.Text

def IsContinuation (b : UInt8) : Prop := 0x80 ≤ b ∧ b < 0xC0

lemma isContinuation_ofNat (n : Nat) : IsContinuation (UInt8.ofNat (n % 64 + 0x80)) := by
  constructor
  · rw [UInt8.le_iff_toNat_le, UInt8.toNat_ofNat']
    change 128 ≤ _
    omega
  · rw [UInt8.lt_iff_toNat_lt, UInt8.toNat_ofNat']
    change _ < 192
    omega

lemma charWidth_ofNat {n : Nat} (h : n < 256) :
    charWidth (UInt8.ofNat n) =
      if 0xC0 ≤ n ∧ n ≤ 0xDF then 2
      else if 0xE0 ≤ n ∧ n ≤ 0xEF then 3
      else if 0xF0 ≤ n ∧ n ≤ 0xF7 then 4
      else 1 := by
  simp [charWidth, UInt8.le_iff_toNat_le, Nat.mod_eq_of_lt h]

lemma charWidth_of_lt {b : UInt8} (h : b < 0xC0) : charWidth b = 1 := by
  have hb : b.toNat < 192 := UInt8.lt_iff_toNat_lt.mp h
  rw [← UInt8.ofNat_toNat (x := b), charWidth_ofNat b.toNat_lt_size, if_neg (by omega),
    if_neg (by omega), if_neg (by omega)]

lemma encodeChar_narrow {c : Char} (h : c.toNat < 128) :
    String.utf8EncodeChar c = [UInt8.ofNat c.toNat] := by
  have hv : c.val.toNat ≤ 0x7f := Nat.le_of_lt_succ h
  simp only [String.utf8EncodeChar, if_pos hv]
  rfl

lemma encodeChar_wide {c : Char} (h : 128 ≤ c.toNat) :
    ∃ lead tail, String.utf8EncodeChar c = lead :: tail ∧
      charWidth lead = tail.length + 1 ∧ 0xC0 ≤ lead ∧ ∀ b ∈ tail, IsContinuation b := by
  have hv : ¬ c.val.toNat ≤ 0x7f := Nat.not_le.mpr h
  have hle (n : Nat) (hn : n < 256) (h : 192 ≤ n) : 0xC0 ≤ UInt8.ofNat n := by
    simpa [UInt8.le_iff_toNat_le, Nat.mod_eq_of_lt hn] using h
  simp only [String.utf8EncodeChar, if_neg hv]
  split
  · refine ⟨_, _, rfl, ?_, hle _ (by omega) (by omega), ?_⟩
    · rw [charWidth_ofNat (by omega), if_pos (by omega)]
      rfl
    · simp only [List.forall_mem_cons, isContinuation_ofNat, List.not_mem_nil, false_implies,
        implies_true, and_true]
  split
  · refine ⟨_, _, rfl, ?_, hle _ (by omega) (by omega), ?_⟩
    · rw [charWidth_ofNat (by omega), if_neg (by omega), if_pos (by omega)]
      rfl
    · simp only [List.forall_mem_cons, isContinuation_ofNat, List.not_mem_nil, false_implies,
        implies_true, and_true]
  · refine ⟨_, _, rfl, ?_, hle _ (by omega) (by omega), ?_⟩
    · rw [charWidth_ofNat (by omega), if_neg (by omega), if_neg (by omega), if_pos (by omega)]
      rfl
    · simp only [List.forall_mem_cons, isContinuation_ofNat, List.not_mem_nil, false_implies,
        implies_true, and_true]

-- An offset inside a character is one of its continuation bytes, whatever follows the character.
lemma drop_inside {c : Char} {n : Nat} (hp : 0 < n) (hn : n < c.utf8Size) (bs : List UInt8) :
    ∃ b rest, (String.utf8EncodeChar c ++ bs).drop n = b :: rest ∧ IsContinuation b := by
  obtain ⟨m, rfl⟩ : ∃ m, n = m + 1 := ⟨n - 1, by omega⟩
  rw [← String.length_utf8EncodeChar] at hn
  rcases Nat.lt_or_ge c.toNat 128 with hc | hc
  · simp [encodeChar_narrow hc] at hn
  · obtain ⟨lead, tail, he, -, -, ht⟩ := encodeChar_wide hc
    rw [he, List.length_cons, Nat.add_lt_add_iff_right] at hn
    refine ⟨tail[m], tail.drop (m + 1) ++ bs, ?_, ht _ (List.getElem_mem hn)⟩
    rw [he, List.cons_append, List.drop_succ_cons, List.drop_append_of_le_length (Nat.le_of_lt hn),
      List.drop_eq_getElem_cons hn, List.cons_append]

lemma drop_beyond {c : Char} {n : Nat} (h : c.utf8Size ≤ n) (cs : List Char) :
    (encode (c :: cs)).drop n = (encode cs).drop (n - c.utf8Size) := by
  rw [encode_cons, List.drop_append, String.length_utf8EncodeChar,
    List.drop_eq_nil_of_le (by simpa using h), List.nil_append]

lemma exists_char_of_narrow {cs : List Char} {n : Nat} {b : UInt8} {bs : List UInt8}
    (h : (encode cs).drop n = b :: bs) (hb : b < 0x80) :
    ∃ before c after, cs = before ++ c :: after ∧ size before = n ∧ c.toNat = b.toNat ∧
      bs = encode after := by
  induction cs generalizing n with
  | nil => simp at h
  | cons c cs ih =>
    rcases Nat.eq_zero_or_pos n with rfl | hp
    · rw [List.drop_zero, encode_cons] at h
      rcases Nat.lt_or_ge c.toNat 128 with hc | hc
      · rw [encodeChar_narrow hc] at h
        obtain ⟨rfl, rfl⟩ := List.cons.inj h
        have hv : c.toNat = (UInt8.ofNat c.toNat).toNat := by
          rw [UInt8.toNat_ofNat', Nat.mod_eq_of_lt (by omega)]
        exact ⟨[], c, cs, rfl, rfl, hv, rfl⟩
      · obtain ⟨lead, tail, he, -, hl, -⟩ := encodeChar_wide hc
        rw [he] at h
        obtain ⟨rfl, -⟩ := List.cons.inj h
        exact absurd (UInt8.lt_of_lt_of_le hb (UInt8.le_trans (by decide) hl)) (UInt8.lt_irrefl _)
    · rcases Nat.lt_or_ge n c.utf8Size with hn | hn
      · obtain ⟨d, rest, he, hd, -⟩ := drop_inside hp hn (encode cs)
        rw [encode_cons, he] at h
        obtain ⟨rfl, -⟩ := List.cons.inj h
        exact absurd (UInt8.lt_of_lt_of_le hb hd) (UInt8.lt_irrefl _)
      · rw [drop_beyond hn] at h
        obtain ⟨before, d, after, rfl, hs, hd⟩ := ih h
        exact ⟨c :: before, d, after, rfl, by rw [size_cons, hs]; omega, hd⟩

lemma getElem?_encode_eq_iff {cs : List Char} {n : Nat} {c : Char} (hc : c.toNat < 128) :
    (encode cs)[n]? = some (UInt8.ofNat c.toNat) ↔
      ∃ before after, cs = before ++ c :: after ∧ size before = n := by
  constructor
  · intro h
    obtain ⟨hn, he⟩ := List.getElem?_eq_some_iff.mp h
    have hv : (UInt8.ofNat c.toNat).toNat = c.toNat := by
      rw [UInt8.toNat_ofNat', Nat.mod_eq_of_lt (by omega)]
    have hb : UInt8.ofNat c.toNat < 0x80 := by
      rw [UInt8.lt_iff_toNat_lt, hv]
      exact hc
    obtain ⟨before, d, after, rfl, hs, hd, -⟩ :=
      exists_char_of_narrow (List.drop_eq_getElem_cons hn) (he ▸ hb)
    rw [he, hv] at hd
    exact ⟨before, after, by rw [Char.toNat_inj.mp hd], hs⟩
  · rintro ⟨before, after, rfl, rfl⟩
    rw [encode_append, ← length_encode, List.getElem?_append_right (Nat.le_refl _), Nat.sub_self,
      encode_cons, encodeChar_narrow hc]
    rfl

lemma eq_nil_of_size_eq_zero {cs : List Char} (h : size cs = 0) : cs = [] := by
  cases cs with
  | nil => rfl
  | cons c cs =>
    have := c.utf8Size_pos
    rw [size_cons] at h
    omega

lemma append_inj_of_size {cs ds es fs : List Char} (h : cs ++ ds = es ++ fs)
    (hs : size cs = size es) : cs = es ∧ ds = fs := by
  have hc := cut?_append cs ds
  rw [h, hs, cut?_append] at hc
  exact ⟨(Prod.mk.inj (Option.some.inj hc)).1.symm, (Prod.mk.inj (Option.some.inj hc)).2.symm⟩

/-- The bytes of a text from an offset on, which may be inside a character. -/
def IsTail (bs : List UInt8) : Prop := ∃ cs n, bs = (encode cs).drop n

lemma isTail_encode (cs : List Char) : IsTail (encode cs) := ⟨cs, 0, rfl⟩

lemma isTail_bytes (text : String) : IsTail (bytes text) := isTail_encode text.toList

lemma IsTail.drop {bs : List UInt8} (h : IsTail bs) (n : Nat) : IsTail (bs.drop n) := by
  obtain ⟨cs, m, rfl⟩ := h
  exact ⟨cs, m + n, List.drop_drop⟩

lemma IsTail.continued {b : UInt8} {bs : List UInt8} (h : IsTail (b :: bs)) :
    ∀ x ∈ bs.take (charWidth b - 1), 0x80 ≤ x := by
  obtain ⟨cs, n, h⟩ := h
  induction cs generalizing n with
  | nil => simp at h
  | cons c cs ih =>
    rcases Nat.eq_zero_or_pos n with rfl | hp
    · rw [List.drop_zero, encode_cons] at h
      rcases Nat.lt_or_ge c.toNat 128 with hc | hc
      · rw [encodeChar_narrow hc] at h
        obtain ⟨rfl, -⟩ := List.cons.inj h
        simp [charWidth_ofNat (show c.toNat < 256 by omega), show ¬ 192 ≤ c.toNat by omega,
          show ¬ 224 ≤ c.toNat by omega, show ¬ 240 ≤ c.toNat by omega]
      · obtain ⟨lead, tail, he, hw, -, ht⟩ := encodeChar_wide hc
        rw [he, List.cons_append] at h
        obtain ⟨rfl, rfl⟩ := List.cons.inj h
        rw [hw, Nat.add_sub_cancel, List.take_left]
        exact fun x hx => (ht x hx).1
    · rcases Nat.lt_or_ge n c.utf8Size with hn | hn
      · obtain ⟨d, rest, he, hd⟩ := drop_inside hp hn (encode cs)
        rw [encode_cons, he] at h
        obtain ⟨rfl, -⟩ := List.cons.inj h
        simp [charWidth_of_lt hd.2]
      · exact ih _ (drop_beyond hn cs ▸ h)

lemma isBoundary_iff {cs : List Char} {n : Nat} :
    IsBoundary cs n ↔ ∃ before after, cs = before ++ after ∧ size before = n := by
  constructor
  · rintro ⟨halves, h⟩
    exact ⟨halves.1, halves.2, cut?_eq_some h⟩
  · rintro ⟨before, after, rfl, rfl⟩
    exact ⟨_, cut?_append before after⟩

lemma slice?_eq_some_iff {cs between : List Char} {start stop : Nat} :
    slice? cs start stop = some between ↔
      ∃ before after, cs = before ++ between ++ after ∧ size before = start ∧
        start + size between = stop := by
  constructor
  · intro h
    rw [slice?] at h
    split at h
    · cases h
    · simp only [Option.bind_eq_bind, Option.bind_eq_some_iff, Option.pure_def,
        Option.some.injEq] at h
      obtain ⟨halves, hh, parts, hp, rfl⟩ := h
      obtain ⟨rfl, hs⟩ := cut?_eq_some hh
      obtain ⟨he, ht⟩ := cut?_eq_some hp
      exact ⟨halves.1, parts.2, by rw [List.append_assoc, ← he], hs, by omega⟩
  · rintro ⟨before, after, rfl, rfl, rfl⟩
    exact slice?_append before between after

end HclLiteral.Text
