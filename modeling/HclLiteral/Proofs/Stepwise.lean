import HclLiteral.Interpolation.Stepwise
import HclLiteral.Proofs.Spans

namespace HclLiteral

namespace Scanner

def resumeAt (s : Scanner) (pos : Nat) : Scanner := ⟨pos, s.rest.drop (pos - s.pos), []⟩

lemma next_resumeAt {s : Scanner} {pos : Nat} (h : s.next.2.pos ≤ pos) :
    s.next.2.resumeAt pos = s.resumeAt pos := by
  have hp : s.next.2.pos = s.pos + (Token.read s.rest).length := rfl
  have hr : s.next.2.rest = s.rest.drop (Token.read s.rest).length := rfl
  rw [resumeAt, resumeAt, hr, List.drop_drop]
  congr 2
  omega

lemma le_of_flatClosing? {s : Scanner} {n : Nat} (h : s.flatClosing? = some n) : s.pos ≤ n := by
  obtain ⟨pos, rest, nesting⟩ := s
  cases nesting with
  | nil => cases h
  | cons depth depths =>
    obtain ⟨m, -, rfl⟩ := Option.map_eq_some_iff.mp h
    exact Nat.le_add_right pos m

end Scanner

namespace Interpolation

def flatSpans (start : Nat) (s : Scanner) : List Span :=
  match s.flatClosing? with
  | some stop => ⟨start, stop⟩ :: stepwise 0 start (s.resumeAt stop)
  | none => [⟨start, s.pos + s.rest.length⟩]

lemma flatSpans_next {start : Nat} {s : Scanner} (h : s.flatClosing? = s.next.2.flatClosing?) :
    flatSpans start s.next.2 = flatSpans start s := by
  rw [flatSpans, flatSpans, h]
  cases hc : s.next.2.flatClosing? with
  | none => rw [s.next_pos]
  | some stop => simp only [Scanner.next_resumeAt (Scanner.le_of_flatClosing? hc)]

/-- With an interpolation open, one scanner runs on to where the flat count closes the outermost one,
and it is as good as fresh there. -/
lemma stepwise_open {level start : Nat} {s : Scanner} (ht : Text.IsTail s.rest) (hl : 0 < level)
    (hn : s.nesting.length = level) : stepwise level start s = flatSpans start s := by
  fun_induction stepwise level start s with
  | case1 | case3 | case6 | case8 => omega
  | case2 start s hb level ih | case9 start s hb level ih =>
    have hf := Scanner.next_tracks ht (by omega) hb
    rw [ih (Scanner.next_isTail ht) (Nat.succ_pos _) (by rw [hf.1, hn]), flatSpans_next hf.2]
  | case4 start s hb ih =>
    have hf := Scanner.next_tracks ht (by omega) hb
    have he : s.next.2.nesting = [] := List.eq_nil_of_length_eq_zero (by have := hf.1; omega)
    -- with no nesting left, the scanner that runs on is a fresh one at its own position
    have hr : s.next.2 = s.resumeAt s.next.2.pos := by
      rw [← Scanner.next_resumeAt (Nat.le_refl _), Scanner.resumeAt, Nat.sub_self, List.drop_zero, ← he]
    rw [flatSpans, hf.2, if_pos he]
    exact congrArg (⟨start, s.next.2.pos⟩ :: stepwise 0 start ·) hr
  | case5 start s hb level ih =>
    have hf := Scanner.next_tracks ht (by omega) hb
    have hn' : s.next.2.nesting.length = level + 1 := by
      have := hf.1
      omega
    have he : s.next.2.nesting ≠ [] := List.ne_nil_of_length_pos (by omega)
    rw [ih (Scanner.next_isTail ht) (Nat.succ_pos _) hn',
      flatSpans_next (hf.2.trans (if_neg he))]
  | case7 start s hb level =>
    have hf := Scanner.next_tracks ht (by omega) hb
    rw [flatSpans, hf.2, hf.1]
    rfl

lemma stepwise_opening {s : Scanner} (hb : s.next.1.tag.boundary = .opening) (start : Nat) :
    stepwise 0 start s = stepwise 1 s.pos s.next.2 := by
  rw [stepwise]
  split <;> rename_i h <;> simp_all

lemma stepwise_restart {s : Scanner} (ht : Text.IsTail s.rest) (he : s.rest ≠ [])
    (ho : opens s.rest = false) (start : Nat) : stepwise 0 start s = stepwise 0 start s.restart := by
  have hst := Scanner.next_step ht
  rw [stepwise]
  split
  · rename_i hb
    rw [hb] at hst
    cases hst
    cases ho
  · rfl
  · rename_i hb
    rw [hb] at hst
    cases hst
    exact absurd rfl he
  · rfl

lemma stepwise_outside {bs : List UInt8} (ht : Text.IsTail bs) (pos start : Nat) :
    stepwise 0 start ⟨pos, bs, []⟩ = spansAfter none pos bs := by
  induction bs using (measure List.length).wf.induction generalizing pos start with
  | h bs ih =>
    by_cases ho : opens bs = true
    · obtain ⟨rest, rfl⟩ := opens_iff.mp ho
      rw [stepwise_opening rfl, stepwise_open (ht.drop 2) Nat.one_pos rfl, spansAfter_of_opens ho,
        spansFrom_eq ht ho, flatSpans]
      have hc : (Scanner.mk pos (0x24 :: 0x7B :: rest) []).next.2.flatClosing? =
          (Quoted.run [.interpolation 0] rest).map (pos + 2 + ·) := rfl
      have hd : (0x24 :: 0x7B :: rest).drop 2 = rest := rfl
      rw [hc, hd]
      cases Quoted.run [.interpolation 0] rest with
      | none =>
        change [Span.mk pos (pos + 2 + rest.length)] = [⟨pos, pos + (rest.length + 2)⟩]
        rw [Nat.add_assoc, Nat.add_comm 2]
      | some n =>
        have hr : (Scanner.mk pos (0x24 :: 0x7B :: rest) []).next.2.resumeAt (pos + 2 + n) =
            ⟨pos + 2 + n, rest.drop n, []⟩ := by
          change Scanner.mk (pos + 2 + n) (rest.drop (pos + 2 + n - (pos + 2))) [] = _
          rw [Nat.add_sub_cancel_left]
        have hl : (rest.drop n).length < (0x24 :: 0x7B :: rest).length := by
          simp only [List.length_drop, List.length_cons]
          omega
        have hs := ih (rest.drop n) hl ((ht.drop 2).drop n) (pos + 2 + n) pos
        exact congrArg (⟨pos, pos + 2 + n⟩ :: ·) ((congrArg (stepwise 0 pos) hr).trans hs)
    · cases bs with
      | nil =>
        rw [stepwise]
        rfl
      | cons b bs =>
        rw [Bool.not_eq_true] at ho
        rw [stepwise_restart ht (List.cons_ne_nil b bs) ho, spansAfter_cons ho]
        exact ih bs (Nat.lt_succ_self _) (ht.drop 1) (pos + 1) start

theorem spans_eq_stepwiseSpans (text : String) : spans text = stepwiseSpans text := by
  have hs := freeOpener?_spec false (Text.bytes text)
  rw [spans, scan, scanBytes, stepwiseSpans]
  cases hf : freeOpener? false (Text.bytes text) with
  | none => rfl
  | some first =>
    rw [hf] at hs
    simp only [stepwise_outside ((Text.isTail_bytes text).drop first),
      spansAfter_of_opens (opens_of_freeAt hs.1)]

end Interpolation

end HclLiteral
