import HclLiteral.Proofs.SpanLayout
import Mathlib.Data.List.Forall2

/-! The spans of a text are settled by where its delimiters stand. Two texts may fall into quite
different tokens; as long as their bytes carry the same marks, they are scanned alike. -/

namespace HclLiteral

def Byte.IsDelimiter (b : UInt8) : Prop := b = 0x24 ∨ b = 0x7B ∨ b = 0x7D ∨ b = 0x22 ∨ b = 0x5C

instance : DecidablePred Byte.IsDelimiter := fun _ => inferInstanceAs (Decidable (_ ∨ _))

/-- As many bytes, and at each offset the same byte or two that are no delimiters. -/
def Text.SameDelimiters : List UInt8 → List UInt8 → Prop :=
  List.Forall₂ fun b c => b = c ∨ ¬ Byte.IsDelimiter b ∧ ¬ Byte.IsDelimiter c

def Text.SameMarks : List UInt8 → List UInt8 → Prop :=
  List.Forall₂ fun b c => Mark.ofByte b = Mark.ofByte c

lemma Mark.ofByte_of_not_isDelimiter {b : UInt8} (h : ¬ Byte.IsDelimiter b) : ofByte b = .plain := by
  simp only [Byte.IsDelimiter, not_or] at h
  obtain ⟨hd, hl, hr, hq, hb⟩ := h
  rw [ofByte, if_neg hd, if_neg hl, if_neg hr, if_neg hq, if_neg hb]

lemma Text.SameDelimiters.sameMarks {bs cs : List UInt8} (h : SameDelimiters bs cs) :
    SameMarks bs cs := by
  refine List.Forall₂.imp ?_ h
  rintro b c (rfl | ⟨hb, hc⟩)
  · rfl
  · rw [Mark.ofByte_of_not_isDelimiter hb, Mark.ofByte_of_not_isDelimiter hc]

variable {bs cs : List UInt8}

lemma Text.SameMarks.drop (h : SameMarks bs cs) (n : Nat) : SameMarks (bs.drop n) (cs.drop n) :=
  List.forall₂_drop n h

lemma Quoted.run_congr (h : Text.SameMarks bs cs) (frames : List Frame) :
    run frames bs = run frames cs := by
  induction h generalizing frames with
  | nil => rfl
  | cons hm _ ih =>
    cases frames with
    | nil => rfl
    | cons frame below => rw [run, run, hm, ih]

namespace Interpolation

lemma opens_congr (h : Text.SameMarks bs cs) : opens bs = opens cs := by
  cases h with
  | nil => rfl
  | cons hm hrest =>
    cases hrest with
    | nil => rfl
    | cons hn _ => rw [opens, opens, hm, hn]

lemma opener?_congr (h : Text.SameMarks bs cs) : opener? bs = opener? cs := by
  induction h with
  | nil => rfl
  | cons hm hrest ih => rw [opener?, opener?, opens_congr (.cons hm hrest), ih]

lemma freeOpener?_congr (h : Text.SameMarks bs cs) (afterDollar : Bool) :
    freeOpener? afterDollar bs = freeOpener? afterDollar cs := by
  induction h generalizing afterDollar with
  | nil => rfl
  | cons hm hrest ih => rw [freeOpener?, freeOpener?, opens_congr (.cons hm hrest), hm, ih]

lemma nextOpener?_congr (h : Text.SameMarks bs cs) (gapLimit : Option Nat) :
    nextOpener? gapLimit bs = nextOpener? gapLimit cs := by
  unfold nextOpener?
  rw [opener?_congr h]

lemma opener?_of_nextOpener? {gapLimit limit : Option Nat} {gap : Nat}
    (h : nextOpener? gapLimit bs = some (gap, limit)) : opener? bs = some gap := by
  unfold nextOpener? at h
  split at h
  · cases h
  · cases h; assumption
  · cases h
  · cases h; assumption
  · cases h; assumption

lemma opens_of_opener? {gap : Nat} (h : opener? bs = some gap) : opens (bs.drop gap) = true := by
  have hs := opener?_spec bs
  rw [h] at hs
  exact hs.1

lemma spansFrom_congr (hb : Text.IsTail bs) (hc : Text.IsTail cs) (ho : opens bs = true)
    (h : Text.SameMarks bs cs) (gapLimit : Option Nat) (pos : Nat) :
    spansFrom gapLimit pos bs = spansFrom gapLimit pos cs := by
  induction bs using (measure List.length).wf.induction generalizing cs gapLimit pos with
  | h bs ih =>
    have hrest := h.drop 2
    rw [spansFrom_eq hb ho, spansFrom_eq hc (opens_congr h ▸ ho), Quoted.run_congr hrest]
    cases hr : Quoted.run [.interpolation 0] (cs.drop 2) with
    | none => simp only [List.Forall₂.length_eq h]
    | some n =>
      -- both close here and find the next opener at one gap, so what is left is shorter on both sides
      have hafter := hrest.drop n
      simp only [spansAfter, nextOpener?_congr hafter]
      congr 1
      cases hnext : nextOpener? gapLimit ((cs.drop 2).drop n) with
      | none => rfl
      | some next =>
        obtain ⟨gap, limit⟩ := next
        have hopens : opens (((bs.drop 2).drop n).drop gap) = true :=
          opens_congr (hafter.drop gap) ▸ opens_of_opener? (opener?_of_nextOpener? hnext)
        have hlt : (((bs.drop 2).drop n).drop gap).length < bs.length := by
          obtain ⟨rest, rfl⟩ := opens_iff.mp ho
          simp only [List.length_drop, List.length_cons]
          omega
        exact ih _ hlt (((hb.drop 2).drop n).drop gap) (((hc.drop 2).drop n).drop gap) hopens
          (hafter.drop gap) limit _

theorem scan_eq_of_sameDelimiters (s t : String) (gapLimit : Option Nat)
    (h : Text.SameDelimiters (Text.bytes s) (Text.bytes t)) : scan gapLimit s = scan gapLimit t := by
  have hm := h.sameMarks
  have hs := freeOpener?_spec false (Text.bytes s)
  rw [scan, scan, scanBytes, scanBytes, ← freeOpener?_congr hm]
  cases hf : freeOpener? false (Text.bytes s) with
  | none => rfl
  | some first =>
    rw [hf] at hs
    exact spansFrom_congr ((Text.isTail_bytes s).drop first) ((Text.isTail_bytes t).drop first)
      (opens_of_freeAt hs.1) (hm.drop first) gapLimit first

theorem scan_eq_of_other_tokens :
    Text.SameDelimiters (Text.bytes "é$\x7bf(\"\\é\x7d\")\x7d $\x7b1")
        (Text.bytes "ab$\x7b0x\"\\cd\x7d\"+\x7d0$\x7b=") ∧
      scan (some 1) "ab$\x7b0x\"\\cd\x7d\"+\x7d0$\x7b=" = [⟨2, 14⟩, ⟨15, 18⟩] := by
  have hd : Text.SameDelimiters (Text.bytes "é$\x7bf(\"\\é\x7d\")\x7d $\x7b1")
      (Text.bytes "ab$\x7b0x\"\\cd\x7d\"+\x7d0$\x7b=") := by
    unfold Text.SameDelimiters
    decide +kernel
  have hs : scan (some 1) "é$\x7bf(\"\\é\x7d\")\x7d $\x7b1" = [⟨2, 14⟩, ⟨15, 18⟩] := by decide +kernel
  exact ⟨hd, (scan_eq_of_sameDelimiters _ _ (some 1) hd).symm.trans hs⟩

end Interpolation

end HclLiteral
