import HclLiteral.Proofs.DecodePass
import HclLiteral.Proofs.Segments
import Mathlib.Algebra.Group.Nat.Defs

namespace HclLiteral

namespace Braces

variable {before rest inner front source back : List Char}

lemma IsRegion.exists_inner (h : IsRegion source back) :
    ∃ inner tail, source = '$' :: '{' :: (inner ++ tail) ∧ tail.length ≤ 1 ∧ Within 0 inner := by
  cases h with
  | closed hw => exact ⟨_, ['}'], rfl, Nat.le_refl 1, hw⟩
  | @unclosed inner hw => exact ⟨inner, [], by rw [List.append_nil], Nat.zero_le 1, hw⟩

/-- A region that starts inside a closed one ends there. Before the brace that closes the outer one there
are no more closing braces than opening ones in front of the inner region, so inside it there are too few. -/
lemma IsRegion.length_le (h : IsRegion source back) (hw : Within 0 inner)
    (hc : inner.count '}' = inner.count '{') (hs : inner ++ '}' :: rest = front ++ source ++ back)
    (hf : front.length < inner.length + 1) : front.length + source.length ≤ inner.length + 1 := by
  obtain ⟨deep, tail, rfl, ht, hdeep⟩ := h.exists_inner
  by_contra hlong
  obtain ⟨more, rfl⟩ : front <+: inner := by
    apply List.prefix_of_prefix_length_le _ (List.prefix_append inner ('}' :: rest)) (by omega)
    rw [hs, List.append_assoc]
    exact List.prefix_append _ _
  simp only [List.append_assoc, List.cons_append, List.append_cancel_left_eq] at hs
  rcases more with _ | ⟨c, _ | ⟨d, more⟩⟩
  · simp at hs
  · simp at hs
  · simp only [List.cons_append, List.cons.injEq] at hs
    obtain ⟨rfl, rfl, hs⟩ := hs
    have hshort : (more ++ ['}']).length ≤ deep.length := by
      simp only [List.length_append, List.length_cons, List.length_nil] at hlong ⊢
      omega
    have hclosing : more ++ ['}'] <+: deep := by
      have hfirst : more ++ ['}'] <+: more ++ '}' :: rest := ⟨rest, by simp⟩
      exact List.prefix_of_prefix_length_le hfirst ⟨tail ++ back, hs.symm⟩ hshort
    have hinside := hdeep _ hclosing
    have hbefore := hw front (List.prefix_append _ _)
    simp at hinside hc
    omega

end Braces

namespace Escape

open Braces

variable {interpolations lossy : Bool} {before rest source : List Char}

/-- Each backslash is inside a region from an opener to the brace that balances it, or else to the end. -/
def BackslashesInside (cs : List Char) : Prop :=
  ∀ before after, cs = before ++ '\\' :: after →
    ∃ front inner outer back, before = front ++ inner ∧ after = outer ++ back ∧
      IsRegion (inner ++ '\\' :: outer) back

def Settled (before rest : List Char) : Prop :=
  ∀ front source back, before ++ rest = front ++ source ++ back → IsRegion source back →
    front.length < before.length → front.length + source.length ≤ before.length

lemma settled_nil (rest : List Char) : Settled [] rest := by
  intro front source back _ _ hf
  exact absurd hf (Nat.not_lt_zero _)

lemma Settled.char {c : Char} (h : Settled before (c :: rest)) (ho : opens (c :: rest) = false) :
    Settled (before ++ [c]) rest := by
  intro front source back hs hr hf
  rw [List.append_assoc] at hs
  rw [List.length_append] at hf ⊢
  rcases Nat.lt_or_eq_of_le (Nat.le_of_lt_succ hf) with hf | hf
  · exact (h front source back hs hr hf).trans (Nat.le_add_right _ _)
  · rw [List.append_assoc] at hs
    have hat := (List.append_inj hs hf.symm).2
    have hopens := opens_append hr.opens back
    rw [← hat] at hopens
    exact absurd (ho.symm.trans hopens) Bool.false_ne_true

lemma Settled.region (h : Settled before (source ++ rest)) (hr : IsRegion source rest) :
    Settled (before ++ source) rest := by
  intro front inside back hs hi hf
  rw [List.length_append] at hf ⊢
  rcases Nat.lt_trichotomy front.length before.length with hlt | heq | hgt
  · rw [List.append_assoc] at hs
    exact (h front inside back hs hi hlt).trans (Nat.le_add_right _ _)
  · rw [List.append_assoc, List.append_assoc] at hs
    have hat := (List.append_inj hs heq.symm).2
    have hsame : source = inside := by rw [← hr.region_eq, hat, hi.region_eq]
    rw [heq, hsame]
  · obtain ⟨more, rfl⟩ : before <+: front := by
      apply List.prefix_of_prefix_length_le _ _ hgt.le
      · exact before ++ source ++ rest
      · rw [List.append_assoc]
        exact List.prefix_append _ _
      · rw [hs, List.append_assoc]
        exact List.prefix_append _ _
    rw [List.length_append] at hf hgt ⊢
    simp only [List.append_assoc, List.append_cancel_left_eq] at hs
    cases hr with
    | unclosed =>
      have hlength := congrArg List.length hs
      simp only [List.length_append, List.length_cons, List.length_nil] at hlength ⊢
      omega
    | @closed inner rest hw hc =>
      have hopens := opens_iff.mp hi.opens
      rcases more with _ | ⟨c, _ | ⟨d, more⟩⟩
      · simp at hgt
      · obtain ⟨_, rfl⟩ := hopens
        simp at hs
      · simp only [List.cons_append, List.cons.injEq, List.append_assoc] at hs
        rw [← List.append_assoc more] at hs
        have hend := hi.length_le hw hc hs.2.2 (by simp at hf; omega)
        simp only [List.length_cons, List.length_append, List.length_nil]
        omega

lemma Settled.ne_backslash {c : Char} (h : Settled before (c :: rest))
    (hb : BackslashesInside (before ++ c :: rest)) : c ≠ '\\' := by
  rintro rfl
  obtain ⟨front, inner, outer, back, rfl, rfl, hr⟩ := hb before rest rfl
  have hinner : inner ≠ [] := by
    rintro rfl
    have hopens := hr.opens
    cases outer <;> cases hopens
  have hpos := List.length_pos_iff.mpr hinner
  have hend := h front (inner ++ '\\' :: outer) back (by simp) hr (by rw [List.length_append]; omega)
  rw [List.length_append, List.length_append] at hend
  rw [List.length_cons] at hend
  omega

lemma pieces_of_inside (h : Settled before rest) (hb : BackslashesInside (before ++ rest)) :
    ∀ p ∈ pieces true rest, p = .verbatim p.source := by
  fun_induction pieces true rest generalizing before with
  | case1 => exact List.forall_mem_nil _
  | case2 c cs ih =>
    have hsource := Piece.read_source_append true c cs
    rw [List.forall_mem_cons]
    refine ⟨Piece.read_of_ne true (h.ne_backslash hb) cs, ?_⟩
    have hnext : Settled (before ++ (Piece.read true c cs).source)
        ((c :: cs).drop (Piece.read true c cs).source.length) := by
      by_cases ho : opens (c :: cs) = true
      · have hread : Piece.read true c cs = .verbatim (region (c :: cs)) := if_pos ho
        obtain ⟨after, hregion, hr⟩ := exists_isRegion ho
        rw [hread] at hsource ⊢
        have hafter := List.append_cancel_left (hsource.trans hregion.symm)
        rw [Piece.source] at hafter ⊢
        rw [hafter]
        exact (hregion ▸ h).region hr
      · have hread : Piece.read true c cs = .verbatim [c] :=
          (if_neg ho).trans (if_neg (h.ne_backslash hb))
        rw [hread]
        exact h.char (Bool.eq_false_iff.mpr ho)
    apply ih hnext
    rwa [List.append_assoc, hsource]

lemma admitted_of_verbatim {p : Piece} (h : p = .verbatim p.source) : p.Admitted lossy := by
  rw [h]
  exact fun _ => trivial

lemma decodePieces_of_verbatim {text : String} (h : ∀ p ∈ pieces interpolations text.toList, p = .verbatim p.source) :
    decodePieces lossy interpolations text = .ok (Decoded.verbatim text) :=
  decodePieces_eq_ok_iff.mpr ⟨fun p hp => admitted_of_verbatim (h p hp), ofPieces_of_verbatim h⟩

/-- Without a backslash outside of its interpolations, a text goes through the full pass as it is, and the short
cut for a text without a backslash would give the same. -/
theorem full_pass_keeps_text (lossy interpolations : Bool) (text : String) (h : (Text.bytes text).length < 2 ^ 32)
    (hb : '\\' ∉ text.toList ∨ interpolations = true ∧ BackslashesInside text.toList) :
    ∃ d, Pass.run lossy interpolations text.toList = .ok (.ok d) ∧
      decodePieces lossy interpolations text = .ok d ∧
      decode interpolations text = .ok d ∧ decodeLossy interpolations text = d ∧
      Pass.verbatim text = d ∧ d.value = text ∧ d.offsets = List.range ((Text.bytes text).length + 1) := by
  have hsize : Text.size text.toList ≤ Offset.max := by
    rw [Text.bytes, Text.length_encode] at h
    exact Nat.le_of_lt_succ h
  have hpieces : ∀ p ∈ pieces interpolations text.toList, p = .verbatim p.source := by
    rcases hb with hb | ⟨rfl, hb⟩
    · exact pieces_of_not_mem interpolations hb
    · exact pieces_of_inside (settled_nil _) hb
  have hlossy : decodePieces true interpolations text = .ok (Decoded.verbatim text) :=
    decodePieces_of_verbatim hpieces
  refine ⟨Decoded.verbatim text, ?_, decodePieces_of_verbatim hpieces, ?_, ?_, Pass.verbatim_eq hsize, rfl, ?_⟩
  · rw [Pass.run_eq _ _ hsize, decodePieces_of_verbatim hpieces]
  · rw [decode_eq_decodePieces, decodePieces_of_verbatim hpieces]
  · rw [decodePieces_lossy] at hlossy
    exact Except.ok.inj hlossy
  · rw [Text.bytes, Text.length_encode]
    rfl

theorem full_pass_keeps_interpolation :
    BackslashesInside "é$\x7b\x7b\x7d\\\x7d".toList ∧
      ∃ d, Pass.run false true "é$\x7b\x7b\x7d\\\x7d".toList = .ok (.ok d) ∧
        d.value = "é$\x7b\x7b\x7d\\\x7d" ∧ d.offsets = List.range 9 := by
  have hb : BackslashesInside "é$\x7b\x7b\x7d\\\x7d".toList := by
    intro before after hs
    replace hs : ['é', '$', '{', '{', '}'] ++ '\\' :: ['}'] = before ++ '\\' :: after := hs
    obtain ⟨rfl, -, rfl⟩ := (List.append_cons_inj_of_notMem (by decide) (by decide)).mp hs
    have hw : Within 0 ['{', '}', '\\'] :=
      within_left.mpr (within_right.mpr ⟨0, rfl, (within_other (by decide) (by decide)).mpr (by simp [Within])⟩)
    exact ⟨['é'], ['$', '{', '{', '}'], ['}'], [], rfl, rfl, @IsRegion.closed _ [] hw rfl⟩
  obtain ⟨d, hrun, -, -, -, -, hvalue, hoffsets⟩ :=
    full_pass_keeps_text false true "é$\x7b\x7b\x7d\\\x7d" (by decide) (Or.inr ⟨rfl, hb⟩)
  exact ⟨hb, d, hrun, hvalue, hoffsets⟩

end Escape

end HclLiteral
