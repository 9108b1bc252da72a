import HclLiteral.Proofs.OffsetTable
import Mathlib.Data.List.Pairwise

namespace HclLiteral

lemma Offset.toOption_add_eq_some_iff {a b n : Nat} :
    (add a b).toOption = some n ↔ a + b = n ∧ n ≤ max := by
  by_cases h : a + b ≤ max
  · simp only [add, if_pos h, Except.toOption, Option.some.injEq]
    exact ⟨fun he => ⟨he, he ▸ h⟩, fun he => he.1⟩
  · simp only [add, if_neg h, Except.toOption, reduceCtorEq, false_iff, not_and]
    rintro rfl
    exact h

lemma Decoded.hostOffset?_eq_some_iff {d : Decoded} {n b : Nat} {window : Span} :
    d.hostOffset? n window = some b ↔
      ∃ o, d.sourceOffset? n = some o ∧ window.start + o = b ∧ b ≤ Offset.max ∧ b ≤ window.stop := by
  simp only [hostOffset?, Option.bind_eq_bind, Option.bind_eq_some_iff, Offset.toOption_add_eq_some_iff,
    Option.ite_none_right_eq_some, Option.some.injEq]
  constructor
  · rintro ⟨o, ho, _, ⟨rfl, hmax⟩, hstop, rfl⟩
    exact ⟨o, ho, rfl, hmax, hstop⟩
  · rintro ⟨o, ho, rfl, hmax, hstop⟩
    exact ⟨o, ho, _, ⟨rfl, hmax⟩, hstop, rfl⟩

namespace Escape

variable {d : Decoded} {text : String} {m n o : Nat}

namespace Tabulates

lemma sourceOffset?_isSome_iff (h : Tabulates d text) : (d.sourceOffset? n).isSome ↔ n ≤ d.size := by
  rw [Decoded.sourceOffset?, isSome_getElem?, h.length]
  exact Nat.lt_succ_iff

lemma sourceOffset?_zero (h : Tabulates d text) : d.sourceOffset? 0 = some 0 := by
  rw [Decoded.sourceOffset?, ← List.head?_eq_getElem?]
  exact h.first

lemma sourceOffset?_size (h : Tabulates d text) : d.sourceOffset? d.size = some (Text.size text.toList) := by
  have hlast := h.last
  rwa [List.getLast?_eq_getElem?, h.length, Nat.add_sub_cancel] at hlast

lemma exists_sourceOffset?_le (h : Tabulates d text) (hmn : m ≤ n) (ho : d.sourceOffset? n = some o) :
    ∃ p, d.sourceOffset? m = some p ∧ p ≤ o := by
  obtain ⟨hn, rfl⟩ := List.getElem?_eq_some_iff.mp ho
  refine ⟨d.offsets[m], List.getElem?_eq_getElem _, ?_⟩
  exact h.sorted.rel_get_of_le (a := ⟨m, hmn.trans_lt hn⟩) (b := ⟨n, hn⟩) hmn

lemma sourceOffset?_le (h : Tabulates d text) (ho : d.sourceOffset? n = some o) :
    o ≤ Text.size text.toList := by
  have hn : n ≤ d.size := h.sourceOffset?_isSome_iff.mp (by rw [ho]; rfl)
  obtain ⟨p, hp, hle⟩ := h.exists_sourceOffset?_le hn h.sourceOffset?_size
  cases ho.symm.trans hp
  exact hle

end Tabulates

/-- Later offsets of a decoded value lie later in the host, and none lies outside the window. If the window is
as long as the literal, just the offsets of the value are translated, and its ends go to the window's. -/
theorem hostOffset_monotone_in_window (interpolations : Bool) (text : String) (d : Decoded)
    (hd : decode interpolations text = .ok d ∨ decodeLossy interpolations text = d) (window : Span) :
    (∀ m n b, m ≤ n → d.hostOffset? n window = some b →
      ∃ a, d.hostOffset? m window = some a ∧ window.start ≤ a ∧ a ≤ b ∧ b ≤ window.stop) ∧
    (window.start ≤ window.stop → window.stop ≤ Offset.max →
      window.stop - window.start = Text.size text.toList →
      (∀ n, (d.hostOffset? n window).isSome ↔ n ≤ d.size) ∧
        d.hostOffset? 0 window = some window.start ∧ d.hostOffset? d.size window = some window.stop) := by
  have ht : Tabulates d text := by
    rcases hd with hd | rfl
    · exact tabulates_of_decodePieces (decode_eq_decodePieces interpolations text ▸ hd)
    · exact tabulates_of_decodePieces (decodePieces_lossy interpolations text)
  refine ⟨?_, ?_⟩
  · intro m n b hmn hb
    obtain ⟨o, ho, rfl, hmax, hstop⟩ := Decoded.hostOffset?_eq_some_iff.mp hb
    obtain ⟨p, hp, hle⟩ := ht.exists_sourceOffset?_le hmn ho
    have hab : window.start + p ≤ window.start + o := Nat.add_le_add_left hle _
    refine ⟨window.start + p, ?_, Nat.le_add_right _ _, hab, hstop⟩
    exact Decoded.hostOffset?_eq_some_iff.mpr ⟨p, hp, rfl, hab.trans hmax, hab.trans hstop⟩
  · intro horder hmax hlen
    have hall {n o : Nat} (ho : d.sourceOffset? n = some o) :
        d.hostOffset? n window = some (window.start + o) := by
      have hle := ht.sourceOffset?_le ho
      exact Decoded.hostOffset?_eq_some_iff.mpr ⟨o, ho, rfl, by omega, by omega⟩
    refine ⟨?_, hall ht.sourceOffset?_zero, ?_⟩
    · intro n
      rw [← ht.sourceOffset?_isSome_iff]
      constructor
      · intro hs
        obtain ⟨b, hb⟩ := Option.isSome_iff_exists.mp hs
        obtain ⟨o, ho, -⟩ := Decoded.hostOffset?_eq_some_iff.mp hb
        rw [ho]
        rfl
      · intro hs
        obtain ⟨o, ho⟩ := Option.isSome_iff_exists.mp hs
        rw [hall ho]
        rfl
    · rw [hall ht.sourceOffset?_size]
      congr 1
      omega

theorem hostOffset_up_to_largest_offset :
    let window : Span := ⟨4294967286, 4294967295⟩
    let d : Decoded := ⟨"a€é", [0, 1, 1, 1, 7, 8, 9]⟩
    decode false "a\\u20ACé" = .ok d ∧ d.hostOffset? 3 window = some 4294967287 ∧
      (∃ a, d.hostOffset? 2 window = some a ∧ 4294967286 ≤ a ∧ a ≤ 4294967287) ∧
      d.hostOffset? 6 window = some 4294967295 ∧ d.hostOffset? 7 window = none := by
  intro window d
  have h : decode false "a\\u20ACé" = .ok d := by decide +kernel
  have hthree : d.hostOffset? 3 window = some 4294967287 := by decide +kernel
  obtain ⟨hmono, hwhole⟩ := hostOffset_monotone_in_window false _ d (Or.inl h) window
  obtain ⟨a, ha, hlo, hhi, -⟩ := hmono 2 3 _ (by decide) hthree
  have hsize : d.size = 6 := by decide +kernel
  obtain ⟨hall, -, hend⟩ := hwhole (by decide) (by decide) (by decide +kernel)
  rw [hsize] at hall hend
  refine ⟨h, hthree, ⟨a, ha, hlo, hhi⟩, hend, ?_⟩
  rw [← Option.not_isSome_iff_eq_none, hall]
  decide

end Escape

end HclLiteral
