import HclLiteral.Interpolation.Trace
import HclLiteral.Proofs.SpanMarks
import HclLiteral.Proofs.StringFrames

/-! The attempts of a scan, read off the bytes one after the other. An attempt that closes has looked at
no byte behind its closing brace, so it is made alike whatever follows. -/

namespace HclLiteral.Interpolation

/-- The attempts on bytes from an offset on, with no interpolation open there. -/
inductive Scanned : Nat → List UInt8 → List Attempt → Prop
  | done (pos : Nat) : Scanned pos [] []
  | skip {pos : Nat} {b : UInt8} {bs : List UInt8} {as : List Attempt} :
      opens (b :: bs) = false → Scanned (pos + 1) bs as → Scanned pos (b :: bs) as
  | closed {pos n : Nat} {bs : List UInt8} {as : List Attempt} :
      Quoted.run [.interpolation 0] bs = some n → Scanned (pos + 2 + n) (bs.drop n) as →
      Scanned pos (0x24 :: 0x7B :: bs) (.closed ⟨pos, pos + 2 + n⟩ :: as)
  | unterminated {pos : Nat} {bs : List UInt8} : Quoted.run [.interpolation 0] bs = none →
      Scanned pos (0x24 :: 0x7B :: bs) [.unterminated ⟨pos, pos + (bs.length + 2)⟩]

def Attempt.shiftRight (n : Nat) : Attempt → Attempt
  | closed span => closed (span.shiftRight n)
  | unterminated span => unterminated (span.shiftRight n)
  | exhausted => exhausted
  | resync offset => resync (Offset.addSaturating offset n)

variable {pos : Nat} {bs more : List UInt8} {as as' : List Attempt}

lemma scanned_of_opener?_none (h : opener? bs = none) (pos : Nat) : Scanned pos bs [] := by
  induction bs generalizing pos with
  | nil => exact .done pos
  | cons b bs ih =>
    by_cases ho : opens (b :: bs) = true
    · simp [opener?, ho] at h
    · simp only [opener?, ho, Bool.false_eq_true, if_false, Option.map_eq_none_iff] at h
      exact .skip (Bool.not_eq_true _ ▸ ho) (ih h (pos + 1))

lemma scanned_of_opener?_some {gap : Nat} (h : opener? bs = some gap)
    (hs : Scanned (pos + gap) (bs.drop gap) as) : Scanned pos bs as := by
  induction bs generalizing pos gap with
  | nil => cases h
  | cons b bs ih =>
    by_cases ho : opens (b :: bs) = true
    · simp only [opener?, ho, if_true, Option.some.injEq] at h
      subst h
      exact hs
    · simp only [opener?, ho, Bool.false_eq_true, if_false, Option.map_eq_some_iff] at h
      obtain ⟨gap, hg, rfl⟩ := h
      refine .skip (Bool.not_eq_true _ ▸ ho) (ih hg ?_)
      rwa [Nat.add_assoc, Nat.add_comm 1]

lemma scanned_attemptsFrom (ht : Text.IsTail bs) (ho : opens bs = true) (pos : Nat) :
    Scanned pos bs (attemptsFrom none pos bs) := by
  induction bs using (measure List.length).wf.induction generalizing pos with
  | h bs ih =>
    have ha := attempt_eq ht ho pos
    obtain ⟨rest, rfl⟩ := opens_iff.mp ho
    rw [List.drop_succ_cons, List.drop_succ_cons, List.drop_zero] at ha
    cases hr : Quoted.run [.interpolation 0] rest with
    | none =>
      simp only [hr] at ha
      simp only [attemptsFrom_eq, ha, Attempt.resume?]
      exact .unterminated hr
    | some n =>
      simp only [hr] at ha
      have hd : pos + 2 + n - pos = n + 2 := by omega
      simp only [attemptsFrom_eq none pos, ha, Attempt.resume?, hd, List.drop_succ_cons, nextOpener?_none]
      refine .closed hr ?_
      cases hn : opener? (rest.drop n) with
      | none => exact scanned_of_opener?_none hn _
      | some gap =>
        have hlt : ((rest.drop n).drop gap).length < (0x24 :: 0x7B :: rest).length := by
          simp only [List.length_drop, List.length_cons]
          omega
        have hs := ih _ hlt (((ht.drop 2).drop n).drop gap) (opens_of_opener? hn) (pos + 2 + n + gap)
        simp only [Option.map_some, Nat.add_right_comm n 2 gap, List.drop_succ_cons, ← List.drop_drop]
        exact scanned_of_opener?_some hn hs

lemma opens_append (h : opens bs = true) (more : List UInt8) : opens (bs ++ more) = true := by
  obtain ⟨rest, rfl⟩ := opens_iff.mp h
  rfl

lemma opens_append_cons {b : UInt8} (h : opens (b :: bs) = false)
    (hm : (b :: bs).getLast? = some 0x24 → more.head? ≠ some 0x7B) : opens (b :: bs ++ more) = false := by
  cases bs with
  | nil =>
    by_contra ho
    obtain ⟨rest, hr⟩ := opens_iff.mp (Bool.not_eq_false _ ▸ ho)
    obtain ⟨rfl, rfl⟩ := List.cons.inj hr
    exact hm rfl rfl
  | cons c bs => exact h

namespace Scanned

lemma eq_nil (h : Scanned pos [] as) : as = [] := by
  cases h
  rfl

lemma of_skip {b : UInt8} (h : Scanned pos (b :: bs) as) (ho : opens (b :: bs) = false) :
    Scanned (pos + 1) bs as := by
  cases h with
  | skip _ hs => exact hs
  | closed => cases ho
  | unterminated => cases ho

lemma of_closed {n : Nat} (h : Scanned pos (0x24 :: 0x7B :: bs) as)
    (hr : Quoted.run [.interpolation 0] bs = some n) :
    ∃ after, as = .closed ⟨pos, pos + 2 + n⟩ :: after ∧ Scanned (pos + 2 + n) (bs.drop n) after := by
  cases h with
  | skip ho => cases ho
  | closed hn hs =>
    obtain rfl := Option.some.inj (hr.symm.trans hn)
    exact ⟨_, rfl, hs⟩
  | unterminated hn => cases hr.symm.trans hn

lemma of_unterminated (h : Scanned pos (0x24 :: 0x7B :: bs) as)
    (hr : Quoted.run [.interpolation 0] bs = none) :
    as = [.unterminated ⟨pos, pos + (bs.length + 2)⟩] := by
  cases h with
  | skip ho => cases ho
  | closed hn => cases hr.symm.trans hn
  | unterminated => rfl

lemma unique (h : Scanned pos bs as) (h' : Scanned pos bs as') : as = as' := by
  induction h generalizing as' with
  | done pos => exact h'.eq_nil.symm
  | skip ho _ ih => exact ih (h'.of_skip ho)
  | closed hr _ ih =>
    obtain ⟨after, rfl, hs⟩ := h'.of_closed hr
    rw [ih hs]
  | unterminated hr => exact (h'.of_unterminated hr).symm

lemma settled (h : Scanned pos bs as) :
    ∃ (spans : List Span) (rest : List Attempt), as = spans.map .closed ++ rest ∧
      (rest = [] ∨ ∃ span, rest = [.unterminated span]) := by
  induction h with
  | done => exact ⟨[], [], rfl, Or.inl rfl⟩
  | skip _ _ ih => exact ih
  | @closed pos n _ _ _ _ ih =>
    obtain ⟨spans, rest, rfl, hrest⟩ := ih
    exact ⟨⟨pos, pos + 2 + n⟩ :: spans, rest, rfl, hrest⟩
  | unterminated => exact ⟨[], _, rfl, Or.inr ⟨_, rfl⟩⟩

lemma closed_prefix {spans : List Span} {rest : List Attempt}
    (h : Scanned pos bs (spans.map .closed ++ rest)) (h' : Scanned pos (bs ++ more) as') :
    spans.map .closed <+: as' := by
  generalize has : spans.map .closed ++ rest = as at h
  induction h generalizing spans as' with
  | done =>
    rw [(List.append_eq_nil_iff.mp has).1]
    exact List.nil_prefix
  | @skip pos b bs as ho hs ih =>
    by_cases hm : opens (b :: bs ++ more) = true
    · -- only the last byte can take part in an opener that was none before, and no attempt follows it
      cases bs with
      | nil =>
        rw [hs.eq_nil] at has
        rw [(List.append_eq_nil_iff.mp has).1]
        exact List.nil_prefix
      | cons c bs => cases ho.symm.trans hm
    · exact ih (h'.of_skip (Bool.not_eq_true _ ▸ hm)) has
  | @closed pos n bs as hr _ ih =>
    cases spans with
    | nil => exact List.nil_prefix
    | cons span spans =>
      obtain ⟨hspan, htail⟩ := List.cons.inj has
      obtain rfl := Attempt.closed.inj hspan
      rw [List.cons_append, List.cons_append] at h'
      obtain ⟨after, rfl, hs⟩ := h'.of_closed (Quoted.run_append_right hr more)
      rw [List.drop_append_of_le_length (Quoted.run_le hr)] at hs
      exact List.cons_prefix_cons.mpr ⟨rfl, ih hs htail⟩
  | unterminated hr =>
    cases spans with
    | nil => exact List.nil_prefix
    | cons span spans => cases (List.cons.inj has).1

lemma append (h : Scanned pos bs as) (hc : ∀ span, .unterminated span ∉ as)
    (hm : bs.getLast? = some 0x24 → more.head? ≠ some 0x7B) (h' : Scanned (pos + bs.length) more as') :
    Scanned pos (bs ++ more) (as ++ as') := by
  induction h with
  | done => exact h'
  | @skip pos b bs as ho _ ih =>
    refine .skip (opens_append_cons ho hm) (ih hc ?_ ?_)
    · cases bs with
      | nil => exact nofun
      | cons c bs => exact hm
    · rwa [Nat.add_assoc, Nat.add_comm 1]
  | @closed pos n bs as hr _ ih =>
    have hle := Quoted.run_le hr
    rw [List.cons_append, List.cons_append, List.cons_append]
    -- the closing brace is inside of `bs`, so the frames close there with more bytes too
    refine .closed (Quoted.run_append_right hr more) ?_
    rw [List.drop_append_of_le_length hle]
    refine ih (fun span hs => hc span (List.mem_cons_of_mem _ hs)) ?_ ?_
    · intro hl
      have hd : ((0x24 :: 0x7B :: bs).drop (n + 2)).getLast? = some 0x24 := hl
      rw [List.getLast?_drop] at hd
      split at hd
      · cases hd
      · exact hm hd
    · have hlen : pos + 2 + n + (bs.drop n).length = pos + (0x24 :: 0x7B :: bs).length := by
        simp only [List.length_drop, List.length_cons]
        omega
      rwa [hlen]
  | unterminated => exact absurd (List.mem_singleton.mpr rfl) (hc _)

lemma shift (h : Scanned pos bs as) {n : Nat} (hn : pos + bs.length + n ≤ Offset.max) :
    Scanned (pos + n) bs (as.map (·.shiftRight n)) := by
  induction h with
  | done => exact .done _
  | @skip pos b bs as ho _ ih =>
    rw [List.length_cons] at hn
    refine .skip ho ?_
    rw [Nat.add_right_comm]
    exact ih (by omega)
  | @closed pos m bs as hr _ ih =>
    have hle := Quoted.run_le hr
    simp only [List.length_cons] at hn
    have hs := ih (by rw [List.length_drop]; omega)
    rw [show pos + 2 + m + n = pos + n + 2 + m by omega] at hs
    rw [List.map_cons, Attempt.shiftRight, Span.shiftRight_eq (by simp only; omega) (by simp only; omega),
      show pos + 2 + m + n = pos + n + 2 + m by omega]
    exact .closed hr hs
  | @unterminated pos bs hr =>
    simp only [List.length_cons] at hn
    rw [List.map_singleton, Attempt.shiftRight,
      Span.shiftRight_eq (by simp only; omega) (by simp only; omega), Nat.add_right_comm pos]
    exact .unterminated hr

end Scanned

lemma freeOpener?_le {afterDollar : Bool} {n : Nat} (h : freeOpener? afterDollar bs = some n) :
    n ≤ bs.length := by
  induction bs generalizing afterDollar n with
  | nil => cases h
  | cons b bs ih =>
    rw [freeOpener?] at h
    split at h
    · cases h
      exact Nat.zero_le _
    · obtain ⟨m, hm, rfl⟩ := Option.map_eq_some_iff.mp h
      exact Nat.succ_le_succ (ih hm)

lemma freeOpener?_append {afterDollar : Bool} {n : Nat} (h : freeOpener? afterDollar bs = some n)
    (more : List UInt8) : freeOpener? afterDollar (bs ++ more) = some n := by
  induction bs generalizing afterDollar n with
  | nil => cases h
  | cons b bs ih =>
    rw [freeOpener?] at h
    rw [List.cons_append, freeOpener?]
    by_cases ho : (opens (b :: bs) && !afterDollar) = true
    · rw [if_pos ho] at h
      rw [Bool.and_eq_true] at ho
      rw [if_pos (by rw [← List.cons_append, opens_append ho.1 more, ho.2]; rfl)]
      exact h
    · rw [if_neg ho] at h
      obtain ⟨m, hm, rfl⟩ := Option.map_eq_some_iff.mp h
      cases bs with
      | nil => cases hm
      | cons c bs =>
        refine (if_neg ho).trans ?_
        rw [ih hm]
        rfl

lemma bytes_append (a b : String) : Text.bytes (a ++ b) = Text.bytes a ++ Text.bytes b := by
  rw [Text.bytes, String.toList_append, Text.encode_append]
  rfl

lemma spans_eq_filterMap (text : String) :
    spans text = (attempts none (Text.bytes text)).filterMap Attempt.span? :=
  scanBytes_eq_filterMap none _

lemma filterMap_span?_closed (spans : List Span) :
    (spans.map .closed).filterMap Attempt.span? = spans := by
  simp [List.filterMap_map, Function.comp_def, Attempt.span?]

lemma attempts_of_freeOpener? {first : Nat} (h : freeOpener? false bs = some first) (ht : Text.IsTail bs) :
    Scanned first (bs.drop first) (attempts none bs) := by
  have hs := freeOpener?_spec false bs
  rw [h] at hs
  simp only [attempts, h]
  exact scanned_attemptsFrom (ht.drop first) (opens_of_freeAt hs.1) first

lemma settledSpans_eq {text : String} {found : List Span} {rest : List Attempt}
    (h : attempts none (Text.bytes text) = found.map .closed ++ rest)
    (hrest : rest = [] ∨ ∃ span, rest = [.unterminated span]) : settledSpans text = found := by
  rw [settledSpans, spans_eq_filterMap, h, List.filterMap_append, filterMap_span?_closed]
  rcases hrest with rfl | ⟨span, rfl⟩
  · rw [List.append_nil, List.getLast?_map]
    cases found.getLast? <;> simp
  · simp [Attempt.span?]

theorem settledSpans_prefix_append (a b : String) : settledSpans a <+: spans (a ++ b) := by
  cases hf : freeOpener? false (Text.bytes a) with
  | none =>
    have he : attempts none (Text.bytes a) = [] := by rw [attempts, hf]
    rw [settledSpans, spans_eq_filterMap, he]
    exact List.nil_prefix
  | some first =>
    have hs := attempts_of_freeOpener? hf (Text.isTail_bytes a)
    have hs' := attempts_of_freeOpener? (freeOpener?_append hf (Text.bytes b))
      (bytes_append a b ▸ Text.isTail_bytes (a ++ b))
    obtain ⟨found, rest, he, hrest⟩ := hs.settled
    rw [List.drop_append_of_le_length (freeOpener?_le hf), ← bytes_append] at hs'
    rw [he] at hs
    rw [settledSpans_eq he hrest, spans_eq_filterMap, ← filterMap_span?_closed found]
    exact (hs.closed_prefix hs').filterMap _

end HclLiteral.Interpolation
