import HclLiteral.Proofs.TokenPattern
import HclLiteral.Proofs.Utf8
import HclLiteral.Token.Number

namespace HclLiteral

namespace Byte

open Pattern Text

structure Encodes (p : UInt8 → Prop) (q : Char → Prop) : Prop where
  narrow : ∀ c, q c → c.toNat < 128
  agrees : ∀ n < 128, (p (UInt8.ofNat n) ↔ q (Char.ofNat n))
  high : ∀ n < 128, ¬ p (UInt8.ofNat (n + 128))

lemma encodes_isBlank : Encodes (fun b => isBlank b) IsBlank where
  narrow c h := by
    rcases h with rfl | rfl | rfl | rfl
    · decide
    · decide
    · decide
    · decide
  agrees := by decide
  high := by decide

lemma encodes_isDigit : Encodes (fun b => isDigit b) IsDigit where
  narrow _ h := Nat.lt_of_le_of_lt h.2 (by decide)
  agrees := by decide
  high := by decide

lemma encodes_isHexDigit : Encodes (fun b => isHexDigit b) IsHexDigit where
  narrow c h := by
    rcases h with h | h | h
    · exact encodes_isDigit.narrow c h
    · exact Nat.lt_of_le_of_lt h.2 (by decide)
    · exact Nat.lt_of_le_of_lt h.2 (by decide)
  agrees := by decide
  high := by decide

lemma encodes_isNameStart : Encodes (fun b => isNameStart b) IsNameStart where
  narrow c h := by
    rcases h with h | h | rfl
    · exact Nat.lt_of_le_of_lt h.2 (by decide)
    · exact Nat.lt_of_le_of_lt h.2 (by decide)
    · decide
  agrees := by decide
  high := by decide

lemma encodes_isNameContinue : Encodes (fun b => isNameContinue b) IsNameContinue where
  narrow c h := by
    rcases h with h | h | rfl
    · exact encodes_isNameStart.narrow c h
    · exact encodes_isDigit.narrow c h
    · decide
  agrees := by decide
  high := by decide

variable {p p' : UInt8 → Prop} {q q' : Char → Prop}

lemma encodes_eq {c : Char} (hc : c.toNat < 128) : Encodes (· = UInt8.ofNat c.toNat) (· = c) := by
  have hbyte {n : Nat} (hn : n < 256) : UInt8.ofNat n = UInt8.ofNat c.toNat ↔ n = c.toNat := by
    rw [← UInt8.toNat_inj, UInt8.toNat_ofNat', UInt8.toNat_ofNat', Nat.mod_eq_of_lt hn,
      Nat.mod_eq_of_lt (by omega)]
  refine ⟨?_, ?_, ?_⟩
  · rintro _ rfl
    exact hc
  · intro n hn
    have hv : (Char.ofNat n).toNat = n := by
      rw [Char.ofNat, dif_pos (Or.inl (by omega))]
      rfl
    rw [hbyte (by omega), ← Char.toNat_inj, hv]
  · intro n hn
    rw [hbyte (by omega)]
    omega

lemma Encodes.or (h : Encodes p q) (h' : Encodes p' q') :
    Encodes (fun b => p b ∨ p' b) (fun c => q c ∨ q' c) where
  narrow c hc := hc.elim (h.narrow c) (h'.narrow c)
  agrees n hn := or_congr (h.agrees n hn) (h'.agrees n hn)
  high n hn := not_or.mpr ⟨h.high n hn, h'.high n hn⟩

lemma encode_cons_narrow {c : Char} (h : c.toNat < 128) (cs : List Char) :
    encode (c :: cs) = UInt8.ofNat c.toNat :: encode cs := by
  rw [encode_cons, encodeChar_narrow h]
  rfl

lemma Encodes.encode_cons (h : Encodes p q) {c : Char} (hc : q c) (cs : List Char) :
    encode (c :: cs) = UInt8.ofNat c.toNat :: encode cs := encode_cons_narrow (h.narrow c hc) cs

lemma Encodes.utf8Size_eq_one (h : Encodes p q) {c : Char} (hc : q c) : c.utf8Size = 1 := by
  rw [← String.length_utf8EncodeChar, encodeChar_narrow (h.narrow c hc)]
  rfl

lemma Encodes.head (h : Encodes p q) {c : Char} {cs : List Char} {b : UInt8} {bs : List UInt8}
    (he : encode (c :: cs) = b :: bs) : p b ↔ q c := by
  rcases Nat.lt_or_ge c.toNat 128 with hc | hc
  · rw [encode_cons_narrow hc] at he
    rw [← (List.cons.inj he).1, h.agrees _ hc, Char.ofNat_toNat]
  · obtain ⟨lead, tail, hl, -, hlead, -⟩ := encodeChar_wide hc
    rw [Text.encode_cons, hl, List.cons_append] at he
    obtain ⟨rfl, -⟩ := List.cons.inj he
    have hge : 192 ≤ lead.toNat := UInt8.le_iff_toNat_le.mp hlead
    have hlt : lead.toNat < 256 := lead.toNat_lt_size
    have hhigh := h.high (lead.toNat - 128) (by omega)
    rw [Nat.sub_add_cancel (by omega), UInt8.ofNat_toNat] at hhigh
    exact iff_of_false hhigh fun hq => Nat.not_lt.mpr hc (h.narrow c hq)

lemma exists_encode_cons (c : Char) (cs : List Char) : ∃ b bs, encode (c :: cs) = b :: bs := by
  apply List.exists_cons_of_ne_nil
  apply List.ne_nil_of_length_pos
  rw [length_encode, size_cons]
  exact Nat.add_pos_left c.utf8Size_pos _

lemma Encodes.tail (h : Encodes p q) {c : Char} {cs : List Char} {b : UInt8} {bs : List UInt8}
    (he : encode (c :: cs) = b :: bs) (hc : q c) : bs = encode cs := by
  rw [h.encode_cons hc] at he
  exact (List.cons.inj he).2.symm

lemma Encodes.exists_run {p : UInt8 → Bool} (h : Encodes (fun b => p b) q) (cs : List Char) :
    ∃ front back, cs = front ++ back ∧ (∀ c ∈ front, q c) ∧ (∀ c ∈ back.head?, ¬ q c) ∧
      ((encode cs).takeWhile p).length = size front := by
  induction cs with
  | nil => exact ⟨[], [], rfl, by simp, by simp, rfl⟩
  | cons c cs ih =>
    by_cases hc : q c
    · obtain ⟨front, back, rfl, hf, hb, hl⟩ := ih
      have he := h.encode_cons hc (front ++ back)
      refine ⟨c :: front, back, rfl, List.forall_mem_cons.mpr ⟨hc, hf⟩, hb, ?_⟩
      rw [he, List.takeWhile_cons_of_pos ((h.head he).mpr hc), List.length_cons, hl, size_cons,
        h.utf8Size_eq_one hc, Nat.add_comm]
    · obtain ⟨b, bs, he⟩ := exists_encode_cons c cs
      refine ⟨[], c :: cs, rfl, by simp, by simpa using hc, ?_⟩
      rw [he, List.takeWhile_cons_of_neg fun hb => hc ((h.head he).mp hb)]
      rfl

end Byte

namespace Pattern

open Byte Text

variable {l m : Language Char} {p : UInt8 → Prop} {q : Char → Prop} {f g : List UInt8 → Nat}
  {c : Char} {cs front back : List Char} {n : Nat}

def LongestSize (l : Language Char) (cs : List Char) (n : Nat) : Prop :=
  ∃ front back, cs = front ++ back ∧ size front = n ∧ Longest l front back

/-- The function counts the bytes of the longest match, and gives 0 where there is none. -/
def Measures (f : List UInt8 → Nat) (l : Language Char) : Prop :=
  ∀ cs, (0 < f (encode cs) ∧ LongestSize l cs (f (encode cs))) ∨ (f (encode cs) = 0 ∧ Unmatched l cs)

lemma Measures.optional (h : Measures f l) (cs : List Char) :
    LongestSize (1 + l) cs (f (encode cs)) := by
  rcases h cs with ⟨-, front, back, he, hs, hl⟩ | ⟨hz, hu⟩
  · exact ⟨front, back, he, hs, longest_one_add hl⟩
  · exact ⟨[], cs, rfl, hz.symm, longest_nil hu⟩

lemma measures_run {p : UInt8 → Bool} (h : Encodes (fun b => p b) q) :
    Measures (fun bs => (bs.takeWhile p).length) (run q) := by
  intro cs
  obtain ⟨front, back, rfl, hf, hb, hl⟩ := h.exists_run cs
  by_cases hn : front = []
  · subst hn
    exact Or.inr ⟨hl, starts_run.unmatched hb⟩
  · have hp : 0 < ((encode (front ++ back)).takeWhile p).length := by
      apply Nat.pos_of_ne_zero
      intro hz
      exact hn (eq_nil_of_size_eq_zero (hl.symm.trans hz))
    exact Or.inl ⟨hp, front, back, rfl, hl.symm, longest_run hn hf hb⟩

lemma LongestSize.cons (h : LongestSize l cs n) (hp : Encodes p q) (hc : q c) :
    LongestSize (one q * l) (c :: cs) (1 + n) := by
  obtain ⟨front, back, rfl, rfl, hl⟩ := h
  refine ⟨c :: front, back, rfl, ?_, longest_one_mul hc hl⟩
  rw [size_cons, hp.utf8Size_eq_one hc]

lemma Measures.cons [DecidablePred p] (h : Measures f l) (hp : Encodes p q) (hn : g [] = 0)
    (hg : ∀ b bs, g (b :: bs) = if p b ∧ 0 < f bs then 1 + f bs else 0) :
    Measures g (one q * l) := by
  intro cs
  cases cs with
  | nil => exact Or.inr ⟨hn, unmatched_one_mul nofun⟩
  | cons c cs =>
    by_cases hc : q c
    · have he := hp.encode_cons hc cs
      have hb := (hp.head he).mpr hc
      rcases h cs with ⟨hpos, hl⟩ | ⟨hz, hu⟩
      · rw [he, hg, if_pos ⟨hb, hpos⟩]
        exact Or.inl ⟨Nat.add_pos_left Nat.one_pos _, hl.cons hp hc⟩
      · rw [he, hg, hz, if_neg fun h => Nat.lt_irrefl 0 h.2]
        refine Or.inr ⟨rfl, unmatched_one_mul ?_⟩
        intro d tail hd _
        exact (List.cons.inj hd).2 ▸ hu
    · obtain ⟨b, bs, he⟩ := exists_encode_cons c cs
      rw [he, hg, if_neg fun h => hc ((hp.head he).mp h.1)]
      exact Or.inr ⟨rfl, (starts_one.mul l).unmatched (by simpa using hc)⟩

lemma drop_encode_append (front back : List Char) :
    (encode (front ++ back)).drop (size front) = encode back := by
  rw [encode_append, ← length_encode, List.drop_left]

lemma Measures.mul (h : Measures f l) (hm : Measures g m)
    (hs : ∀ cs ∈ l, ∀ c ∈ cs, ∀ tail, c :: tail ∉ m) :
    Measures (fun bs => if 0 < g (bs.drop (f bs)) then f bs + g (bs.drop (f bs)) else 0)
      ((1 + l) * m) := by
  intro cs
  obtain ⟨front, back, rfl, hf, hl⟩ := h.optional cs
  have hstart : ∀ c ∈ front, ∀ tail, c :: tail ∉ m := by
    rcases hl.1 with rfl | hfront
    · exact nofun
    · exact hs front hfront
  simp only [← hf, drop_encode_append]
  rcases hm back with ⟨hpos, between, rest, rfl, hb, hr⟩ | ⟨hz, hu⟩
  · rw [if_pos hpos]
    refine Or.inl ⟨Nat.add_pos_right _ hpos, front ++ between, rest, ?_, ?_, longest_mul hl hr hstart⟩
    · rw [List.append_assoc]
    · rw [size_append, hb]
  · rw [hz, if_neg (Nat.lt_irrefl 0)]
    exact Or.inr ⟨rfl, unmatched_mul hl hu hstart⟩

lemma LongestSize.mul (h : LongestSize l cs n) (hm : ∀ cs, LongestSize m cs (f (encode cs)))
    (hs : ∀ cs ∈ l, ∀ c ∈ cs, ∀ tail, c :: tail ∉ m) :
    LongestSize (l * m) cs (n + f ((encode cs).drop n)) := by
  obtain ⟨front, back, rfl, rfl, hl⟩ := h
  obtain ⟨between, rest, rfl, hb, hr⟩ := hm back
  refine ⟨front ++ between, rest, ?_, ?_, longest_mul hl hr (hs front hl.1)⟩
  · rw [List.append_assoc]
  · rw [size_append, hb, drop_encode_append]

lemma longest_one (hc : q c) (cs : List Char) : Longest (one q) [c] cs := by
  have hnil : Longest 1 [] cs := ⟨rfl, fun ds hd _ => hd ▸ List.nil_prefix⟩
  exact mul_one (one q) ▸ longest_one_mul hc hnil

lemma measures_one [DecidablePred p] (hp : Encodes p q) (hn : g [] = 0)
    (hg : ∀ b bs, g (b :: bs) = if p b then 1 else 0) : Measures g (one q) := by
  intro cs
  cases cs with
  | nil => exact Or.inr ⟨hn, starts_one.unmatched nofun⟩
  | cons c cs =>
    obtain ⟨b, bs, he⟩ := exists_encode_cons c cs
    rw [he, hg]
    by_cases hc : q c
    · rw [if_pos ((hp.head he).mpr hc)]
      exact Or.inl ⟨Nat.one_pos, [c], cs, rfl, hp.utf8Size_eq_one hc, longest_one hc cs⟩
    · rw [if_neg fun h => hc ((hp.head he).mp h)]
      exact Or.inr ⟨rfl, starts_one.unmatched (by simpa using hc)⟩

end Pattern

namespace Number

open Byte Pattern Text

lemma measures_fraction (cs : List Char) :
    LongestSize Pattern.fraction cs (fraction (encode cs)) := by
  apply Measures.optional
  exact (measures_run encodes_isDigit).cons (encodes_eq (c := '.') (by decide)) rfl fun _ _ => rfl

lemma measures_sign : Measures sign (one fun c => c = '+' ∨ c = '-') :=
  measures_one ((encodes_eq (c := '+') (by decide)).or (encodes_eq (c := '-') (by decide))) rfl
    fun _ _ => rfl

lemma measures_exponent (cs : List Char) :
    LongestSize Pattern.exponent cs (exponent (encode cs)) := by
  apply Measures.optional
  have hd : Measures digits (run IsDigit) := measures_run encodes_isDigit
  have hs : ∀ cs ∈ one (fun c => c = '+' ∨ c = '-'), ∀ c ∈ cs, ∀ tail, c :: tail ∉ run IsDigit := by
    rintro _ ⟨c, hc, rfl⟩ _ hm
    obtain rfl := List.mem_singleton.mp hm
    apply not_mem_of_starts starts_run
    rcases hc with rfl | rfl
    · decide
    · decide
  apply (measures_sign.mul hd hs).cons
    ((encodes_eq (c := 'e') (by decide)).or (encodes_eq (c := 'E') (by decide))) rfl
  intro b bs
  rcases Nat.eq_zero_or_pos (digits (bs.drop (sign bs))) with hz | hpos
  · simp only [exponent, hz, Nat.lt_irrefl, if_false, and_false]
  · simp only [exponent, hpos, if_true, Nat.add_pos_right _ hpos, Nat.add_assoc]
    rfl

lemma digits_not_fraction :
    ∀ cs ∈ run IsDigit, ∀ c ∈ cs, ∀ tail, c :: tail ∉ Pattern.fraction := by
  intro cs hcs c hc
  apply cons_not_mem_one_add (starts_one.mul _)
  rintro rfl
  exact absurd (hcs.2 '.' hc) (by decide)

lemma whole_not_exponent :
    ∀ cs ∈ run IsDigit * Pattern.fraction, ∀ c ∈ cs, ∀ tail, c :: tail ∉ Pattern.exponent := by
  intro cs hcs c hc
  apply cons_not_mem_one_add (starts_one.mul _)
  rcases within_whole cs hcs c hc with hd | rfl
  · rintro (rfl | rfl)
    · exact absurd hd (by decide)
    · exact absurd hd (by decide)
  · decide

lemma decimal_longest {cs : List Char} (h : 0 < digits (encode cs)) :
    LongestSize Pattern.decimal cs (decimal (encode cs)) := by
  rcases measures_run encodes_isDigit cs with ⟨-, hd⟩ | ⟨hz, -⟩
  · exact (hd.mul measures_fraction digits_not_fraction).mul measures_exponent whole_not_exponent
  · exact absurd hz (Nat.ne_of_gt h)

def hexadecimalTail : List UInt8 → Nat
  | [] => 0
  | b :: bs =>
    let run := (bs.takeWhile isHexDigit).length
    if (b = 0x78 ∨ b = 0x58) ∧ 0 < run then 1 + run else 0

lemma hexadecimal_cons (b : UInt8) (bs : List UInt8) :
    hexadecimal (b :: bs) = if b = 0x30 ∧ 0 < hexadecimalTail bs then 1 + hexadecimalTail bs else 0 := by
  cases bs with
  | nil =>
    rw [if_neg fun h => Nat.lt_irrefl 0 h.2]
    rfl
  | cons letter bs =>
    simp only [hexadecimal, hexadecimalTail]
    by_cases h : (letter = 0x78 ∨ letter = 0x58) ∧ 0 < (bs.takeWhile isHexDigit).length
    · simp only [h, if_true, and_self, and_true, Nat.add_pos_left, Nat.one_pos, ← Nat.add_assoc]
    · simp only [h, if_false, and_false, Nat.lt_irrefl]

lemma measures_hexadecimal : Measures hexadecimal Pattern.hexadecimal := by
  have hd : Measures (fun bs => (bs.takeWhile isHexDigit).length) (run IsHexDigit) :=
    measures_run encodes_isHexDigit
  have ht : Measures hexadecimalTail (one (fun c => c = 'x' ∨ c = 'X') * run IsHexDigit) :=
    hd.cons ((encodes_eq (c := 'x') (by decide)).or (encodes_eq (c := 'X') (by decide))) rfl
      fun _ _ => rfl
  exact ht.cons (encodes_eq (c := '0') (by decide)) rfl hexadecimal_cons

lemma longest_number_of_hexadecimal {front back : List Char}
    (h : Longest Pattern.hexadecimal front back) : Longest Pattern.number front back := by
  obtain ⟨_, ⟨_, rfl, rfl⟩, tail, ht, rfl⟩ := Language.mem_mul.mp h.1
  obtain ⟨_, ⟨x, hx, rfl⟩, hex, -, rfl⟩ := Language.mem_mul.mp ht
  have hclass : ¬ IsDigit x ∧ x ≠ '.' ∧ ¬ (x = 'e' ∨ x = 'E') := by
    rcases hx with rfl | rfl
    · decide
    · decide
  have hd : Longest (run IsDigit) ['0'] (x :: (hex ++ back)) :=
    longest_run (by decide) (List.forall_mem_singleton.mpr (by decide)) (by simpa using hclass.1)
  have hf : Longest Pattern.fraction [] (x :: (hex ++ back)) :=
    longest_nil ((starts_one.mul _).unmatched (by simpa using hclass.2.1))
  have he : Longest Pattern.exponent [] (x :: (hex ++ back)) :=
    longest_nil ((starts_one.mul _).unmatched (by simpa using hclass.2.2))
  have hw := longest_mul hd hf (digits_not_fraction _ hd.1)
  have hzero : Longest Pattern.decimal ['0'] (x :: (hex ++ back)) :=
    longest_mul hw he (whole_not_exponent _ hw.1)
  refine ⟨Or.inl h.1, ?_⟩
  rintro ds (hd | hd) hp
  · exact h.2 ds hd hp
  · exact (hzero.2 ds hd hp).trans (List.prefix_append ['0'] _)

lemma length_longest {c : Char} (hc : IsDigit c) (cs : List Char) :
    LongestSize Pattern.number (c :: cs) (length (encode (c :: cs))) := by
  rcases measures_hexadecimal (c :: cs) with ⟨hpos, front, back, he, hs, hl⟩ | ⟨hz, hu⟩
  · rw [length, if_pos hpos]
    exact ⟨front, back, he, hs, longest_number_of_hexadecimal hl⟩
  · have hd : 0 < digits (encode (c :: cs)) := by
      have he := encodes_isDigit.encode_cons hc cs
      rw [digits, he, List.takeWhile_cons_of_pos ((encodes_isDigit.head he).mpr hc)]
      exact Nat.succ_pos _
    obtain ⟨front, back, he, hs, hl⟩ := decimal_longest hd
    rw [length, hz, if_neg (Nat.lt_irrefl 0)]
    refine ⟨front, back, he, hs, Or.inr hl.1, ?_⟩
    rintro ds (hh | hh) hp
    · exact absurd (he ▸ hp) (hu ds hh)
    · exact hl.2 ds hh hp

end Number

end HclLiteral
