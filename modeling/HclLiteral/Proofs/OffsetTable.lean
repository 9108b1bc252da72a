import HclLiteral.Proofs.DecodeCut

/-! The table of a decoded text. Its entries never fall, and at the start of a character none of them is
less than its own place, since an escape is always longer than what it stands for. -/

namespace HclLiteral

namespace Text

lemma utf8Size_of_narrow {c : Char} (h : c.toNat < 128) : c.utf8Size = 1 :=
  Char.utf8Size_eq_one_iff.mpr (UInt32.le_iff_toNat_le.mpr (Nat.le_of_lt_succ h))

lemma utf8Size_le_two {c : Char} (h : c.toNat < 2048) : c.utf8Size ≤ 2 := by
  rcases Nat.lt_or_ge c.toNat 128 with hc | hc
  · rw [utf8Size_of_narrow hc]
    decide
  · apply Nat.le_of_eq
    exact Char.utf8Size_eq_two_iff.mpr
      ⟨UInt32.lt_iff_toNat_lt.mpr hc, UInt32.le_iff_toNat_le.mpr (Nat.le_of_lt_succ h)⟩

lemma length_le_size (cs : List Char) : cs.length ≤ size cs := by
  induction cs with
  | nil => exact Nat.le_refl 0
  | cons c cs ih =>
    have := c.utf8Size_pos
    rw [List.length_cons, size_cons]
    omega

end Text

namespace Escape

lemma utf8Size_letter {letter meaning : Char} (h : (letter, meaning) ∈ letters) :
    meaning.utf8Size = 1 := by
  have key : ∀ e ∈ letters, e.2.utf8Size = 1 := by decide
  exact key _ h

lemma utf8Size_octal {digits : List Char} {meaning : Char} (hn : digits ≠ [])
    (hs : Numeral.Spells 8 digits meaning.toNat) (hl : digits.length ≤ 3) :
    meaning.utf8Size ≤ digits.length := by
  have hv := Numeral.lt_of_spells hs
  rcases Nat.lt_or_ge digits.length 3 with hlt | hge
  · have hpow : Nat.pow 8 digits.length ≤ Nat.pow 8 2 :=
      Nat.pow_le_pow_right (by decide) (Nat.le_of_lt_succ hlt)
    rw [Text.utf8Size_of_narrow (Nat.lt_of_lt_of_le hv (Nat.le_trans hpow (by decide)))]
    exact List.length_pos_iff.mpr hn
  · have hpow : Nat.pow 8 digits.length ≤ Nat.pow 8 3 := Nat.pow_le_pow_right (by decide) hl
    have htwo := Text.utf8Size_le_two (Nat.lt_of_lt_of_le hv (Nat.le_trans hpow (by decide)))
    exact Nat.le_trans htwo (Nat.le_of_succ_le hge)

lemma utf8Size_hex {letter meaning : Char} {width : Nat} {digits : List Char}
    (hm : (letter, width) ∈ hexLetters) (hl : digits.length = width)
    (hs : Numeral.Spells 16 digits meaning.toNat) : meaning.utf8Size ≤ width := by
  have key : ∀ e ∈ hexLetters, e.2 = 2 ∨ 4 ≤ e.2 := by decide
  have hwidth : width = 2 ∨ 4 ≤ width := key _ hm
  rcases hwidth with rfl | hw
  · have hv := Numeral.lt_of_spells hs
    rw [hl] at hv
    exact Text.utf8Size_le_two (Nat.lt_of_lt_of_le hv (by decide))
  · exact Nat.le_trans meaning.utf8Size_le_four hw

lemma Spelled.utf8Size_le {source rest : List Char} {meaning : Char} (h : Spelled source rest meaning) :
    meaning.utf8Size ≤ Text.size source := by
  refine Nat.le_trans ?_ (Text.length_le_size source)
  cases h with
  | letter hm => exact Nat.le_of_eq (utf8Size_letter hm)
  | octal hn hs hl _ => exact utf8Size_octal hn hs (Nat.le_trans hl (octalLimit_le _))
  | hex hm hl hs _ _ => exact Nat.le_succ_of_le (hl ▸ utf8Size_hex hm hl hs)

def Piece.IsTight (p : Piece) : Prop :=
  p = .verbatim p.source ∨ Text.size p.value < Text.size p.source

variable {interpolations : Bool} {start : Nat} {a : Piece} {as : List Piece}

lemma Piece.isTight_of_mem_atoms {c : Char} {cs : List Char}
    (h : a ∈ (read interpolations c cs).atoms) : a.IsTight := by
  cases hr : read interpolations c cs with
  | verbatim source | malformed source fault =>
    rw [hr] at h
    obtain ⟨d, -, rfl⟩ := List.mem_map.mp h
    exact Or.inl rfl
  | escape source meaning =>
    rw [hr] at h
    obtain rfl := List.mem_singleton.mp h
    have hu := isUnit_read (read_source_append interpolations c cs) (by rw [hr]; trivial)
    rw [hr] at hu
    cases hu with
    | escape hs =>
      have hle := hs.utf8Size_le
      right
      change _ + 0 < 1 + _
      omega

lemma isTight_atoms {cs : List Char} :
    ∀ a ∈ (pieces interpolations cs).flatMap Piece.atoms, a.IsTight := by
  fun_induction pieces interpolations cs with
  | case1 => exact List.forall_mem_nil _
  | case2 c cs ih =>
    intro a ha
    rw [List.flatMap_cons, List.mem_append] at ha
    rcases ha with ha | ha
    · exact Piece.isTight_of_mem_atoms ha
    · exact ih a ha

lemma Piece.IsTight.size_le (h : a.IsTight) : Text.size a.value ≤ Text.size a.source := by
  rcases h with h | h
  · rw [h]
    exact Nat.le_refl _
  · exact Nat.le_of_lt h

lemma Piece.IsTight.mem_offsets (h : a.IsTight) {o : Nat} (ho : o ∈ a.offsets start) :
    start ≤ o ∧ o < start + Text.size a.source := by
  cases a with
  | verbatim source | malformed source fault => exact List.mem_range'_1.mp ho
  | escape source meaning =>
    obtain ⟨-, rfl⟩ := List.mem_replicate.mp ho
    rcases h with h | h
    · cases h
    · exact ⟨Nat.le_refl _, Nat.lt_add_of_pos_right (Nat.zero_lt_of_lt h)⟩

lemma Piece.pairwise_offsets (start : Nat) (p : Piece) : (p.offsets start).Pairwise (· ≤ ·) := by
  cases p with
  | verbatim source | malformed source fault => exact List.pairwise_le_range'
  | escape source meaning => exact List.pairwise_replicate.mpr (Or.inr (Nat.le_refl _))

lemma size_value_le (h : ∀ a ∈ as, a.IsTight) :
    Text.size (as.flatMap Piece.value) ≤ Text.size (as.flatMap Piece.source) := by
  induction as with
  | nil => exact Nat.le_refl 0
  | cons a as ih =>
    rw [List.forall_mem_cons] at h
    rw [List.flatMap_cons, List.flatMap_cons, Text.size_append, Text.size_append]
    exact Nat.add_le_add h.1.size_le (ih h.2)

lemma verbatim_of_size_eq (h : ∀ a ∈ as, a.IsTight)
    (hs : Text.size (as.flatMap Piece.value) = Text.size (as.flatMap Piece.source)) :
    ∀ a ∈ as, a = .verbatim a.source := by
  induction as with
  | nil => exact List.forall_mem_nil _
  | cons a as ih =>
    rw [List.forall_mem_cons] at h
    rw [List.flatMap_cons, List.flatMap_cons, Text.size_append, Text.size_append] at hs
    have hle := h.1.size_le
    have hrest := size_value_le h.2
    refine List.forall_mem_cons.mpr ⟨?_, ih h.2 (by omega)⟩
    rcases h.1 with hv | hlt
    · exact hv
    · omega

lemma mem_offsetTable (h : ∀ a ∈ as, a.IsTight) {o : Nat} (ho : o ∈ offsetTable start as) :
    start ≤ o := by
  induction as generalizing start with
  | nil => exact Nat.le_of_eq (List.mem_singleton.mp ho).symm
  | cons a as ih =>
    rw [List.forall_mem_cons] at h
    rcases List.mem_append.mp ho with ho | ho
    · exact (h.1.mem_offsets ho).1
    · exact Nat.le_trans (Nat.le_add_right _ _) (ih h.2 ho)

lemma mem_dropLast_offsetTable (h : ∀ a ∈ as, a.IsTight) {o : Nat}
    (ho : o ∈ (offsetTable start as).dropLast) : o < start + Text.size (as.flatMap Piece.source) := by
  induction as generalizing start with
  | nil => cases ho
  | cons a as ih =>
    rw [List.forall_mem_cons] at h
    rw [offsetTable, List.dropLast_append_of_ne_nil (offsetTable_ne_nil _ as)] at ho
    rw [List.flatMap_cons, Text.size_append]
    rcases List.mem_append.mp ho with ho | ho
    · have := (h.1.mem_offsets ho).2
      omega
    · have := ih h.2 ho
      omega

lemma pairwise_offsetTable (h : ∀ a ∈ as, a.IsTight) : (offsetTable start as).Pairwise (· ≤ ·) := by
  induction as generalizing start with
  | nil => exact List.pairwise_singleton _ _
  | cons a as ih =>
    rw [List.forall_mem_cons] at h
    refine List.pairwise_append.mpr ⟨a.pairwise_offsets start, ih h.2, ?_⟩
    intro o ho o' ho'
    exact Nat.le_trans (Nat.le_of_lt (h.1.mem_offsets ho).2) (mem_offsetTable h.2 ho')

/-- The table leads from the value back to the text without ever lagging behind. Only a text that stands
for itself has a value as long as it is. -/
structure Tabulates (d : Decoded) (text : String) : Prop where
  length : d.offsets.length = d.size + 1
  first : d.offsets.head? = some 0
  sorted : d.offsets.Pairwise (· ≤ ·)
  last : d.offsets.getLast? = some (Text.size text.toList)
  inside : ∀ o ∈ d.offsets.dropLast, o < Text.size text.toList
  ahead : ∀ k, Text.IsBoundary d.value.toList k → ∃ o, d.sourceOffset? k = some o ∧ k ≤ o
  size_le : d.size ≤ Text.size text.toList
  size_eq_iff : d.size = Text.size text.toList ↔ d.value = text
  value_eq_iff : d.value = text ↔ d.offsets = List.range (d.size + 1)

lemma sourceOffset?_ofPieces_ge (h : ∀ a ∈ as, a.IsTight) (hv : ∀ a ∈ as, ∃ c, a.value = [c]) {k : Nat}
    (hk : Text.IsBoundary (as.flatMap Piece.value) k) :
    ∃ o, (Decoded.ofPieces as).sourceOffset? k = some o ∧ k ≤ o := by
  obtain ⟨front, back, hcut, rfl⟩ := Text.isBoundary_iff.mp hk
  obtain ⟨before, after, rfl, rfl, -⟩ := exists_append_of_value hv hcut
  refine ⟨_, sourceOffset?_append before after, size_value_le ?_⟩
  intro a ha
  exact h a (List.mem_append_left after ha)

lemma ofPieces_of_size_eq (h : ∀ a ∈ as, a.IsTight)
    (hs : (Decoded.ofPieces as).size = Text.size (as.flatMap Piece.source)) :
    (Decoded.ofPieces as).value.toList = as.flatMap Piece.source ∧
      (Decoded.ofPieces as).offsets = List.range ((Decoded.ofPieces as).size + 1) := by
  have hvalue : (Decoded.ofPieces as).value.toList = as.flatMap Piece.value := String.toList_ofList
  have hverbatim := verbatim_of_size_eq h (by rw [← hvalue]; exact hs)
  refine ⟨by rw [hvalue, flatMap_value_of_verbatim hverbatim], ?_⟩
  rw [hs, List.range_eq_range']
  exact offsetTable_of_verbatim 0 hverbatim

lemma tabulates_ofPieces {text : String} (h : ∀ a ∈ as, a.IsTight)
    (hv : ∀ a ∈ as, ∃ c, a.value = [c]) (hs : as.flatMap Piece.source = text.toList) :
    Tabulates (Decoded.ofPieces as) text := by
  have hvalue : (Decoded.ofPieces as).value.toList = as.flatMap Piece.value := String.toList_ofList
  have hlast : (Decoded.ofPieces as).offsets.getLast? = some (Text.size text.toList) := by
    rw [← hs, ← Nat.zero_add (Text.size _)]
    exact getLast?_offsetTable 0 as
  have hkept (he : (Decoded.ofPieces as).size = Text.size text.toList) :
      (Decoded.ofPieces as).value = text ∧
        (Decoded.ofPieces as).offsets = List.range ((Decoded.ofPieces as).size + 1) := by
    obtain ⟨htext, htable⟩ := ofPieces_of_size_eq h (by rw [hs]; exact he)
    exact ⟨String.toList_inj.mp (htext.trans hs), htable⟩
  have hsize (he : (Decoded.ofPieces as).value = text) :
      (Decoded.ofPieces as).size = Text.size text.toList := by rw [Decoded.size, he]
  refine ⟨?_, head?_offsetTable 0 as, pairwise_offsetTable h, hlast, ?_, ?_, ?_, ?_, ?_⟩
  · rw [Decoded.size, hvalue]
    exact length_offsetTable 0 as
  · intro o ho
    rw [← hs, ← Nat.zero_add (Text.size _)]
    exact mem_dropLast_offsetTable h ho
  · intro k hk
    exact sourceOffset?_ofPieces_ge h hv (hvalue ▸ hk)
  · rw [Decoded.size, hvalue, ← hs]
    exact size_value_le h
  · exact ⟨fun he => (hkept he).1, hsize⟩
  · refine ⟨fun he => (hkept (hsize he)).2, ?_⟩
    intro he
    -- the last entry of an identity table is its own place, which is the end of the value
    rw [he, List.getLast?_range, if_neg (Nat.succ_ne_zero _)] at hlast
    exact (hkept (Option.some.inj hlast)).1

lemma tabulates_of_decodePieces {lossy : Bool} {text : String} {d : Decoded}
    (h : decodePieces lossy interpolations text = .ok d) : Tabulates d text := by
  obtain ⟨as, hdecodes, rfl⟩ := decodePieces_eq_ok_iff_decodes.mp h
  refine tabulates_ofPieces ?_ hdecodes.exists_value hdecodes.source
  rw [← hdecodes.atoms]
  exact isTight_atoms

theorem decoded_table_wellFormed (interpolations : Bool) (text : String) :
    Tabulates (decodeLossy interpolations text) text ∧
      ∀ d, decode interpolations text = .ok d → Tabulates d text := by
  refine ⟨tabulates_of_decodePieces (decodePieces_lossy interpolations text), ?_⟩
  intro d hd
  rw [decode_eq_decodePieces] at hd
  exact tabulates_of_decodePieces hd

theorem decoded_table_of_wide_escape :
    decode true "é\\U0001F600$\x7b\\n" = .ok ⟨"é😀$\x7b\\n", [0, 1, 2, 2, 2, 2, 12, 13, 14, 15, 16]⟩ ∧
      Tabulates ⟨"é😀$\x7b\\n", [0, 1, 2, 2, 2, 2, 12, 13, 14, 15, 16]⟩ "é\\U0001F600$\x7b\\n" := by
  have h : decode true "é\\U0001F600$\x7b\\n" =
      .ok ⟨"é😀$\x7b\\n", [0, 1, 2, 2, 2, 2, 12, 13, 14, 15, 16]⟩ := by decide +kernel
  exact ⟨h, (decoded_table_wellFormed true _).2 _ h⟩

end Escape

end HclLiteral
