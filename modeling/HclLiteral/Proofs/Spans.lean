import HclLiteral.Interpolation.Spans
import HclLiteral.Proofs.Attempt

namespace HclLiteral.Interpolation

def spansAfter (gapLimit : Option Nat) (pos : Nat) (bs : List UInt8) : List Span :=
  match nextOpener? gapLimit bs with
  | none => []
  | some (gap, limit) => spansFrom limit (pos + gap) (bs.drop gap)

lemma spansFrom_eq {bs : List UInt8} (ht : Text.IsTail bs) (ho : opens bs = true)
    (gapLimit : Option Nat) (pos : Nat) :
    spansFrom gapLimit pos bs =
      match Quoted.run [.interpolation 0] (bs.drop 2) with
      | some n => ⟨pos, pos + 2 + n⟩ :: spansAfter gapLimit (pos + 2 + n) ((bs.drop 2).drop n)
      | none => [⟨pos, pos + bs.length⟩] := by
  have ha := attempt_eq ht ho pos
  rw [spansFrom]
  cases hr : Quoted.run [.interpolation 0] (bs.drop 2) with
  | none =>
    simp only [hr] at ha
    split
    · rw [ha]
      rfl
    · rename_i hm
      rw [ha] at hm
      cases hm
  | some n =>
    simp only [hr] at ha
    split
    · rename_i hm
      rw [ha] at hm
      cases hm
    · rename_i resume hm
      rw [ha] at hm ⊢
      cases hm
      have hd : pos + 2 + n - pos = 2 + n := by omega
      simp only [Attempt.span?, Option.toList_some, List.singleton_append, hd]
      rw [spansAfter, List.drop_drop]
      cases nextOpener? gapLimit (bs.drop (2 + n)) with
      | none => rfl
      | some next => simp only [List.drop_drop]

lemma nextOpener?_none (bs : List UInt8) : nextOpener? none bs = (opener? bs).map (·, none) := by
  unfold nextOpener?
  cases opener? bs with
  | none => rfl
  | some gap => cases gap <;> rfl

lemma spansAfter_of_opens {bs : List UInt8} (h : opens bs = true) (pos : Nat) :
    spansAfter none pos bs = spansFrom none pos bs := by
  obtain ⟨rest, rfl⟩ := opens_iff.mp h
  rfl

lemma spansAfter_cons {b : UInt8} {bs : List UInt8} (h : opens (b :: bs) = false) (pos : Nat) :
    spansAfter none pos (b :: bs) = spansAfter none (pos + 1) bs := by
  rw [spansAfter, spansAfter, nextOpener?_none, nextOpener?_none, opener?, h]
  cases opener? bs with
  | none => rfl
  | some gap =>
    change spansFrom none (pos + (gap + 1)) _ = spansFrom none (pos + 1 + gap) _
    rw [Nat.add_right_comm, Nat.add_assoc]
    rfl

def FreeAt (afterDollar : Bool) (bs : List UInt8) : Nat → Prop
  | 0 => opens bs = true ∧ afterDollar = false
  | n + 1 => opens (bs.drop (n + 1)) = true ∧ bs[n]? ≠ some 0x24

lemma freeAt_succ (afterDollar : Bool) (b : UInt8) (bs : List UInt8) (n : Nat) :
    FreeAt afterDollar (b :: bs) (n + 1) ↔ FreeAt (decide (Mark.ofByte b = .dollar)) bs n := by
  cases n with
  | zero => simp [FreeAt, Mark.ofByte_dollar_iff]
  | succ n => simp [FreeAt]

lemma freeOpener?_spec (afterDollar : Bool) (bs : List UInt8) :
    match freeOpener? afterDollar bs with
    | some n => FreeAt afterDollar bs n ∧ ∀ m < n, ¬ FreeAt afterDollar bs m
    | none => ∀ m, ¬ FreeAt afterDollar bs m := by
  induction bs generalizing afterDollar with
  | nil =>
    intro m hm
    cases m <;> cases hm.1
  | cons b bs ih =>
    rw [freeOpener?]
    by_cases h : (opens (b :: bs) && !afterDollar) = true
    · rw [if_pos h]
      rw [Bool.and_eq_true, Bool.not_eq_true'] at h
      exact ⟨h, fun m hm => absurd hm (Nat.not_lt_zero m)⟩
    · rw [if_neg h]
      have h0 : ¬ FreeAt afterDollar (b :: bs) 0 := by
        rintro ⟨ho, hd⟩
        exact h (by rw [ho, hd]; rfl)
      have hs := ih (decide (Mark.ofByte b = .dollar))
      cases hf : freeOpener? (decide (Mark.ofByte b = .dollar)) bs with
      | none =>
        rw [hf] at hs
        rintro (_ | m) hm
        · exact h0 hm
        · exact hs m ((freeAt_succ afterDollar b bs m).mp hm)
      | some n =>
        rw [hf] at hs
        refine ⟨(freeAt_succ afterDollar b bs n).mpr hs.1, ?_⟩
        rintro (_ | m) hlt hm
        · exact h0 hm
        · exact hs.2 m (Nat.lt_of_succ_lt_succ hlt) ((freeAt_succ afterDollar b bs m).mp hm)

lemma opens_of_freeAt {afterDollar : Bool} {bs : List UInt8} {n : Nat}
    (h : FreeAt afterDollar bs n) : opens (bs.drop n) = true := by
  cases n with
  | zero => exact h.1
  | succ n => exact h.1

end HclLiteral.Interpolation
