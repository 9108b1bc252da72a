import HclLiteral.Escape.Grammar
import Mathlib.Data.List.Induction
import Mathlib.Data.List.TakeWhile
import Mathlib.Tactic.Lemma

namespace HclLiteral

namespace Numeral

instance (c : Char) (v : Nat) : Decidable (IsDigit c v) := inferInstanceAs (Decidable (c ∈ _))

lemma of_isDigit {base : Nat} {P : Char → Nat → Prop}
    (h : ∀ v < base, P (Nat.digitChar v) v ∧ P (Nat.digitChar v).toUpper v) {c : Char} {v : Nat}
    (hv : v < base) (hd : IsDigit c v) : P c v := by
  rcases List.mem_cons.mp hd with rfl | hd
  · exact (h v hv).1
  · obtain rfl := List.mem_singleton.mp hd
    exact (h v hv).2

lemma digitValue_of_isDigit {c : Char} {v : Nat} (hv : v < 16) (h : IsDigit c v) :
    digitValue c = v :=
  of_isDigit (P := fun c v => digitValue c = v) (by decide) hv h

lemma exists_isDigit_of_between {c : Char} {base : Nat} (lo hi : Nat) (hl : lo ≤ c.toNat)
    (hh : c.toNat ≤ hi) (hd : ∀ n < hi + 1, lo ≤ n → ∃ v < base, IsDigit (Char.ofNat n) v) :
    ∃ v < base, IsDigit c v := by
  have := hd c.toNat (by omega) hl
  rwa [Char.ofNat_toNat] at this

lemma isOctalDigit_iff {c : Char} : isOctalDigit c = true ↔ ∃ v < 8, IsDigit c v := by
  constructor
  · intro h
    rw [isOctalDigit, Bool.and_eq_true, decide_eq_true_iff, decide_eq_true_iff] at h
    exact exists_isDigit_of_between 48 55 h.1 h.2 (by decide)
  · rintro ⟨v, hv, hd⟩
    exact of_isDigit (P := fun c _ => isOctalDigit c = true) (by decide) hv hd

lemma isHexDigit_iff {c : Char} : isHexDigit c = true ↔ ∃ v < 16, IsDigit c v := by
  constructor
  · intro h
    simp only [isHexDigit, Char.isDigit, Bool.or_eq_true, Bool.and_eq_true, decide_eq_true_iff] at h
    rcases h with (h | h) | h
    · exact exists_isDigit_of_between 48 57 h.1 h.2 (by decide)
    · exact exists_isDigit_of_between 97 102 h.1 h.2 (by decide)
    · exact exists_isDigit_of_between 65 70 h.1 h.2 (by decide)
  · rintro ⟨v, hv, hd⟩
    exact of_isDigit (P := fun c _ => isHexDigit c = true) (by decide) hv hd

lemma value_snoc (base : Nat) (digits : List Char) (c : Char) :
    value base (digits ++ [c]) = value base digits * base + digitValue c := by
  rw [value, List.foldl_append]
  rfl

lemma spells_iff {base : Nat} {p : Char → Bool} (hb : base ≤ 16)
    (hp : ∀ {c}, p c = true ↔ ∃ v < base, IsDigit c v) {digits : List Char} {n : Nat} :
    Spells base digits n ↔ (∀ c ∈ digits, p c = true) ∧ value base digits = n := by
  constructor
  · intro h
    induction h with
    | nil => exact ⟨by simp, rfl⟩
    | snoc _ hv hc ih =>
      refine ⟨?_, ?_⟩
      · intro c' hc'
        rcases List.mem_append.mp hc' with hc' | hc'
        · exact ih.1 c' hc'
        · obtain rfl := List.mem_singleton.mp hc'
          exact hp.mpr ⟨_, hv, hc⟩
      · rw [value_snoc, ih.2, digitValue_of_isDigit (by omega) hc]
  · rintro ⟨hd, rfl⟩
    induction digits using List.reverseRecOn with
    | nil => exact Spells.nil
    | append_singleton digits c ih =>
      obtain ⟨v, hv, hc⟩ := hp.mp (hd c (by simp))
      rw [value_snoc, digitValue_of_isDigit (by omega) hc]
      exact (ih fun d hd' => hd d (List.mem_append_left _ hd')).snoc hv hc

lemma spells_octal_iff {digits : List Char} {n : Nat} :
    Spells 8 digits n ↔ (∀ c ∈ digits, isOctalDigit c = true) ∧ value 8 digits = n :=
  spells_iff (by decide) isOctalDigit_iff

lemma spells_hex_iff {digits : List Char} {n : Nat} :
    Spells 16 digits n ↔ (∀ c ∈ digits, isHexDigit c = true) ∧ value 16 digits = n :=
  spells_iff (Nat.le_refl 16) isHexDigit_iff

lemma lt_of_spells {base : Nat} {digits : List Char} {n : Nat} (h : Spells base digits n) :
    n < Nat.pow base digits.length := by
  induction h with
  | nil => exact Nat.one_pos
  | @snoc digits n v _ _ hv _ ih =>
    rw [List.length_append]
    calc n * base + v
      _ < (n + 1) * base := by
        rw [Nat.succ_mul]
        exact Nat.add_lt_add_left hv _
      _ ≤ Nat.pow base digits.length * base := Nat.mul_le_mul_right base ih

end Numeral

namespace Braces

lemma within_cons {n : Nat} {c : Char} {cs : List Char} :
    Within n (c :: cs) ↔
      ∀ front, front <+: cs → (c :: front).count '}' ≤ (c :: front).count '{' + n := by
  constructor
  · intro h front hf
    exact h _ (List.cons_prefix_cons.mpr ⟨rfl, hf⟩)
  · intro h front hf
    rcases List.prefix_cons_iff.mp hf with rfl | ⟨tail, rfl, ht⟩
    · simp
    · exact h tail ht

lemma within_left {n : Nat} {cs : List Char} : Within n ('{' :: cs) ↔ Within (n + 1) cs := by
  rw [within_cons]
  simp only [Within, List.count_cons_self, List.count_cons_of_ne (by decide : '{' ≠ '}')]
  constructor
  · intro h front hf
    have := h front hf
    omega
  · intro h front hf
    have := h front hf
    omega

lemma within_right {n : Nat} {cs : List Char} :
    Within n ('}' :: cs) ↔ ∃ m, n = m + 1 ∧ Within m cs := by
  rw [within_cons]
  simp only [Within, List.count_cons_self, List.count_cons_of_ne (by decide : '}' ≠ '{')]
  constructor
  · intro h
    have h0 := h [] List.nil_prefix
    rw [List.count_nil, List.count_nil] at h0
    refine ⟨n - 1, by omega, ?_⟩
    intro front hf
    have := h front hf
    omega
  · rintro ⟨m, rfl, h⟩ front hf
    have := h front hf
    omega

lemma within_other {n : Nat} {c : Char} {cs : List Char} (hl : c ≠ '{') (hr : c ≠ '}') :
    Within n (c :: cs) ↔ Within n cs := by
  rw [within_cons]
  simp only [Within, List.count_cons_of_ne hl, List.count_cons_of_ne hr]

lemma closeLength_append {n : Nat} {inner : List Char} (hw : Within n inner) (tail : List Char) :
    closeLength (n + 1) (inner ++ tail) =
      inner.length + closeLength (n + 1 + inner.count '{' - inner.count '}') tail := by
  induction inner generalizing n with
  | nil => simp
  | cons c cs ih =>
    rw [List.cons_append, closeLength, List.length_cons]
    by_cases hl : c = '{'
    · subst hl
      have hn : n + 1 + ('{' :: cs).count '{' - ('{' :: cs).count '}' =
          n + 1 + 1 + cs.count '{' - cs.count '}' := by simp; omega
      rw [if_pos rfl, ih (within_left.mp hw), hn]
      omega
    · rw [if_neg hl]
      by_cases hr : c = '}'
      · subst hr
        obtain ⟨m, rfl, hm⟩ := within_right.mp hw
        have hs : m + 1 + 1 + ('}' :: cs).count '{' - ('}' :: cs).count '}' =
            m + 1 + cs.count '{' - cs.count '}' := by simp; omega
        rw [if_pos rfl, ih hm, hs]
        omega
      · rw [if_neg hr, ih ((within_other hl hr).mp hw), List.count_cons_of_ne hl,
          List.count_cons_of_ne hr]
        omega

lemma region_of_balanced {inner : List Char} (rest : List Char) (hw : Within 0 inner)
    (hc : inner.count '}' = inner.count '{') :
    region ('$' :: '{' :: inner ++ '}' :: rest) = '$' :: '{' :: inner ++ ['}'] := by
  have hl : closeLength 1 (inner ++ '}' :: rest) = inner.length + 1 := by
    rw [closeLength_append hw, hc]
    simp [closeLength]
  simp only [region, List.cons_append, List.drop_succ_cons, List.drop_zero, hl, Nat.add_comm 2,
    List.take_succ_cons]
  rw [List.take_length_add_append]
  rfl

lemma region_of_within {inner : List Char} (hw : Within 0 inner) :
    region ('$' :: '{' :: inner) = '$' :: '{' :: inner := by
  have hl : closeLength 1 inner = inner.length := by
    have h := closeLength_append hw []
    rw [List.append_nil] at h
    rw [h]
    cases 0 + 1 + inner.count '{' - inner.count '}' <;> rfl
  simp [region, hl, Nat.add_comm 2]

lemma within_or_balanced (n : Nat) (cs : List Char) :
    Within n cs ∨ ∃ inner rest, cs = inner ++ '}' :: rest ∧ Within n inner ∧
      inner.count '}' = inner.count '{' + n := by
  induction cs generalizing n with
  | nil =>
    left
    intro front hf
    rw [List.prefix_nil.mp hf]
    simp
  | cons c cs ih =>
    by_cases hl : c = '{'
    · subst hl
      rcases ih (n + 1) with hw | ⟨inner, rest, rfl, hw, hc⟩
      · exact Or.inl (within_left.mpr hw)
      · refine Or.inr ⟨'{' :: inner, rest, rfl, within_left.mpr hw, ?_⟩
        simp
        omega
    · by_cases hr : c = '}'
      · subst hr
        cases n with
        | zero => exact Or.inr ⟨[], cs, rfl, by simp [Within], rfl⟩
        | succ n =>
          rcases ih n with hw | ⟨inner, rest, rfl, hw, hc⟩
          · exact Or.inl (within_right.mpr ⟨n, rfl, hw⟩)
          · refine Or.inr ⟨'}' :: inner, rest, rfl, within_right.mpr ⟨n, rfl, hw⟩, ?_⟩
            simp
            omega
      · rcases ih n with hw | ⟨inner, rest, rfl, hw, hc⟩
        · exact Or.inl ((within_other hl hr).mpr hw)
        · refine Or.inr ⟨c :: inner, rest, rfl, (within_other hl hr).mpr hw, ?_⟩
          rw [List.count_cons_of_ne hl, List.count_cons_of_ne hr, hc]

end Braces

namespace Escape

lemma simple?_eq_some_iff {letter meaning : Char} :
    simple? letter = some meaning ↔ (letter, meaning) ∈ letters := by
  unfold simple?
  split
  all_goals simp_all [letters, eq_comm]

lemma hexWidth?_eq_some_iff {letter : Char} {width : Nat} :
    hexWidth? letter = some width ↔ (letter, width) ∈ hexLetters := by
  unfold hexWidth?
  split
  all_goals simp_all [hexLetters, eq_comm]

lemma octal_head {c : Char} (hc : Numeral.isOctalDigit c = true) (cs : List Char) :
    simple? c = none ∧ octalLimit (c :: cs) = if c ≤ '3' then 3 else 2 := by
  obtain ⟨v, hv, hd⟩ := Numeral.isOctalDigit_iff.mp hc
  exact Numeral.of_isDigit (P := fun c _ => simple? c = none ∧
    (if some c ∈ [some '0', some '1', some '2', some '3'] then 3 else 2) = if c ≤ '3' then 3 else 2)
    (by decide) hv hd

lemma exists_takeWhile_take (p : Char → Bool) (cs : List Char) (limit : Nat) :
    ∃ rest, cs = (cs.take limit).takeWhile p ++ rest ∧
      (((cs.take limit).takeWhile p).length < limit → ∀ c ∈ rest.head?, p c = false) := by
  induction cs generalizing limit with
  | nil => exact ⟨[], by simp⟩
  | cons c cs ih =>
    cases limit with
    | zero => exact ⟨c :: cs, by simp⟩
    | succ limit =>
      by_cases hp : p c = true
      · obtain ⟨rest, hr, hs⟩ := ih limit
        refine ⟨rest, ?_, ?_⟩
        · rw [List.take_succ_cons, List.takeWhile_cons_of_pos hp, List.cons_append, ← hr]
        · rw [List.take_succ_cons, List.takeWhile_cons_of_pos hp, List.length_cons]
          intro hl
          exact hs (by omega)
      · exact ⟨c :: cs, by simp [hp]⟩

lemma takeWhile_take_append {p : Char → Bool} {digits rest : List Char} {limit : Nat}
    (hd : ∀ c ∈ digits, p c = true) (hl : digits.length ≤ limit)
    (hr : digits.length < limit → ∀ c ∈ rest.head?, p c = false) :
    ((digits ++ rest).take limit).takeWhile p = digits := by
  have hs : (rest.take (limit - digits.length)).takeWhile p = [] := by
    cases rest with
    | nil => simp
    | cons c rest =>
      rcases Nat.lt_or_eq_of_le hl with hl | rfl
      · obtain ⟨k, hk⟩ : ∃ k, limit - digits.length = k + 1 := ⟨limit - digits.length - 1, by omega⟩
        simp [hk, hr hl c rfl]
      · simp
  rw [List.take_append, List.take_of_length_le hl, List.takeWhile_append_of_pos hd, hs,
    List.append_nil]

lemma digitFault?_eq_none_iff {letter : Char} {width : Nat} {cs : List Char} :
    digitFault? letter width cs = none ↔
      (∀ c ∈ cs.take width, Numeral.isHexDigit c = true) ∧ width ≤ cs.length := by
  unfold digitFault?
  split
  · rename_i digit h
    have hm := List.mem_of_find?_eq_some h
    have hd := List.find?_some h
    simp only [reduceCtorEq, false_iff, not_and]
    intro hall
    rw [hall digit hm] at hd
    cases hd
  · rename_i h
    rw [List.find?_eq_none] at h
    simp only [ite_eq_right_iff, reduceCtorEq, imp_false, Nat.not_lt]
    constructor
    · intro hl
      exact ⟨fun c hc => by simpa using h c hc, hl⟩
    · exact And.right

lemma toNat_ofNat_of_valid {n : Nat} (h : n.isValidChar) : (Char.ofNat n).toNat = n := by
  rw [Char.ofNat, dif_pos h]
  rfl

lemma ofCodePoint_eq_ok_iff {code : Nat} {c : Char} :
    ofCodePoint code = .ok c ↔ c.toNat = code ∧ c ≠ '\n' ∧ c ≠ '\r' := by
  have hv : c.toNat.isValidChar := c.valid
  unfold ofCodePoint
  constructor
  · intro h
    split at h
    · cases h
    · split at h
      · rename_i hb hc
        cases h
        have ht := toNat_ofNat_of_valid hc
        refine ⟨ht, ?_, ?_⟩
        · intro he
          rw [he] at ht
          exact hb (Or.inl ht.symm)
        · intro he
          rw [he] at ht
          exact hb (Or.inr ht.symm)
      · cases h
  · rintro ⟨rfl, hn, hr⟩
    rw [if_neg, if_pos hv, Char.ofNat_toNat]
    rintro (h | h)
    · exact hn (Char.toNat_inj.mp h)
    · exact hr (Char.toNat_inj.mp h)

lemma isSign_of_isHexDigit {c : Char} (hc : Numeral.isHexDigit c = true) : isSign c = false := by
  obtain ⟨v, hv, hd⟩ := Numeral.isHexDigit_iff.mp hc
  exact Numeral.of_isDigit (P := fun c _ => isSign c = false) (by decide) hv hd

/-- A sign is no digit, so the test for one rejects nothing that the digits' own test lets pass. -/
lemma readHex_eq_ok_iff {letter : Char} {width : Nat} (hw : 0 < width) {cs : List Char}
    {r : Reading} :
    readHex letter width cs = .ok r ↔
      width ≤ cs.length ∧ Numeral.Spells 16 (cs.take width) r.meaning.toNat ∧
        r.meaning ≠ '\n' ∧ r.meaning ≠ '\r' ∧ r.length = 1 + width := by
  obtain ⟨meaning, length⟩ := r
  rw [Numeral.spells_hex_iff]
  unfold readHex
  constructor
  · intro h
    split at h
    · cases h
    · split at h
      · cases h
      · rename_i hf
        obtain ⟨hd, hl⟩ := digitFault?_eq_none_iff.mp hf
        cases hc : ofCodePoint (Numeral.value 16 (cs.take width)) with
        | error fault => rw [hc] at h; cases h
        | ok c =>
          rw [hc] at h
          cases h
          obtain ⟨hv, hn, hr⟩ := ofCodePoint_eq_ok_iff.mp hc
          exact ⟨hl, ⟨hd, hv.symm⟩, hn, hr, rfl⟩
  · rintro ⟨hl, ⟨hd, hv⟩, hn, hr, rfl⟩
    have hs : (cs.take 1).any isSign = false := by
      cases cs with
      | nil => rfl
      | cons c cs =>
        have hc : c ∈ (c :: cs).take width := by
          rw [List.take_cons hw]
          exact List.mem_cons_self
        simpa using isSign_of_isHexDigit (hd c hc)
    rw [hs, digitFault?_eq_none_iff.mpr ⟨hd, hl⟩, ofCodePoint_eq_ok_iff.mpr ⟨hv.symm, hn, hr⟩]
    rfl

lemma octalLimit_le (digits : List Char) : octalLimit digits ≤ 3 := by
  unfold octalLimit
  split
  · exact Nat.le_refl 3
  · decide

lemma octalDigits_append {digits rest : List Char} (hn : digits ≠ [])
    (hd : ∀ c ∈ digits, Numeral.isOctalDigit c = true) (hl : digits.length ≤ octalLimit digits)
    (hr : digits.length < octalLimit digits → ∀ c ∈ rest.head?, Numeral.isOctalDigit c = false) :
    octalDigits (digits ++ rest) = digits := by
  obtain ⟨c, cs, rfl⟩ := List.exists_cons_of_ne_nil hn
  have hlimit := (octal_head (hd c List.mem_cons_self) cs).2
  rw [hlimit] at hl hr
  exact takeWhile_take_append hd hl hr

lemma not_isDigit_iff {rest : List Char} :
    (∀ c ∈ rest.head?, ∀ v < 8, ¬ Numeral.IsDigit c v) ↔
      ∀ c ∈ rest.head?, Numeral.isOctalDigit c = false := by
  refine forall₂_congr fun c _ => ?_
  rw [Bool.eq_false_iff, ne_eq, Numeral.isOctalDigit_iff]
  constructor
  · rintro h ⟨v, hv, hd⟩
    exact h v hv hd
  · intro h v hv hd
    exact h ⟨v, hv, hd⟩

lemma exists_spelled_octal {letter : Char} (ho : Numeral.isOctalDigit letter = true)
    (cs : List Char) :
    ∃ rest, letter :: cs = octalDigits (letter :: cs) ++ rest ∧
      Spelled (octalDigits (letter :: cs)) rest
        (Char.ofNat (Numeral.value 8 (octalDigits (letter :: cs)))) := by
  obtain ⟨rest, hr, hs⟩ := exists_takeWhile_take Numeral.isOctalDigit (letter :: cs)
    (if letter ≤ '3' then 3 else 2)
  have hd : ∀ c ∈ octalDigits (letter :: cs), Numeral.isOctalDigit c = true :=
    fun c hc => List.mem_takeWhile_imp hc
  have hl : (octalDigits (letter :: cs)).length ≤ if letter ≤ '3' then 3 else 2 :=
    Nat.le_trans (List.takeWhile_prefix _).length_le (List.length_take_le _ _)
  change letter :: cs = octalDigits (letter :: cs) ++ rest at hr
  change (octalDigits (letter :: cs)).length < _ → _ at hs
  obtain ⟨digits, hdigits⟩ : ∃ digits, octalDigits (letter :: cs) = letter :: digits := by
    rw [octalDigits]
    split <;> exact ⟨_, List.takeWhile_cons_of_pos ho⟩
  rw [hdigits, ← (octal_head ho digits).2] at hs hl
  rw [hdigits] at hr hd ⊢
  have hspells := Numeral.spells_octal_iff.mpr ⟨hd, rfl⟩
  -- at most three octal digits stay below the surrogates
  have hv : Numeral.value 8 (letter :: digits) < 512 :=
    Nat.lt_of_lt_of_le (Numeral.lt_of_spells hspells)
      (Nat.pow_le_pow_right (by decide) (Nat.le_trans hl (octalLimit_le _)))
  refine ⟨rest, hr, .octal (List.cons_ne_nil _ _) ?_ hl fun h => not_isDigit_iff.mpr (hs h)⟩
  rwa [toNat_ofNat_of_valid (Or.inl (by omega))]

lemma hexLetters_head {letter : Char} {width : Nat} (h : (letter, width) ∈ hexLetters) :
    simple? letter = none ∧ Numeral.isOctalDigit letter = false ∧ 0 < width := by
  have key : ∀ e ∈ hexLetters, simple? e.1 = none ∧ Numeral.isOctalDigit e.1 = false ∧ 0 < e.2 := by
    decide
  exact key _ h

lemma read_of_spelled {source rest : List Char} {meaning : Char} (h : Spelled source rest meaning) :
    read (source ++ rest) = .ok ⟨meaning, source.length⟩ := by
  cases h with
  | letter hm => simp [read, simple?_eq_some_iff.mpr hm]
  | octal hn hs hl hr =>
    obtain ⟨hd, hv⟩ := Numeral.spells_octal_iff.mp hs
    have ho := octalDigits_append hn hd hl fun h => not_isDigit_iff.mp (hr h)
    obtain ⟨c, cs, rfl⟩ := List.exists_cons_of_ne_nil hn
    have hc := hd c List.mem_cons_self
    rw [List.cons_append] at ho ⊢
    simp only [read, (octal_head hc cs).1, if_pos hc, ho, hv, Char.ofNat_toNat]
  | @hex letter _ width digits _ hm hl hs hn hr =>
    have hw := hexWidth?_eq_some_iff.mpr hm
    obtain ⟨hsimple, hoctal, hpos⟩ := hexLetters_head hm
    have hx : readHex letter width (digits ++ rest) = .ok ⟨meaning, (letter :: digits).length⟩ := by
      rw [readHex_eq_ok_iff hpos, ← hl, List.take_left]
      refine ⟨by simp, hs, hn, hr, ?_⟩
      rw [List.length_cons, Nat.add_comm]
    simp only [List.cons_append, read, hsimple, hoctal, hw]
    exact hx

lemma spelled_of_read {cs : List Char} {r : Reading} (h : read cs = .ok r) :
    ∃ source rest, cs = source ++ rest ∧ source.length = r.length ∧ Spelled source rest r.meaning := by
  unfold read at h
  split at h
  · cases h
  · rename_i letter cs
    split at h
    · rename_i meaning hm
      cases h
      exact ⟨[letter], cs, rfl, rfl, .letter (simple?_eq_some_iff.mp hm)⟩
    · split at h
      · rename_i ho
        cases h
        obtain ⟨rest, hr, hs⟩ := exists_spelled_octal ho cs
        exact ⟨_, rest, hr, rfl, hs⟩
      · split at h
        · rename_i width hw
          have hm := hexWidth?_eq_some_iff.mp hw
          obtain ⟨hl, hs, hn, hr, hlen⟩ := (readHex_eq_ok_iff (hexLetters_head hm).2.2).mp h
          have ht : (cs.take width).length = width := List.length_take_of_le hl
          refine ⟨letter :: cs.take width, cs.drop width, ?_, ?_, .hex hm ht hs hn hr⟩
          · rw [List.cons_append, List.take_append_drop]
          · rw [List.length_cons, ht, hlen, Nat.add_comm]
        · cases h

end Escape

end HclLiteral
