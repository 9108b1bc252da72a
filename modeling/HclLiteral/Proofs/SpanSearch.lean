import HclLiteral.Interpolation.Search
import HclLiteral.Proofs.ReaderTokens
import HclLiteral.Proofs.SpanLayout

namespace HclLiteral

lemma Text.buffer_eq {bs : List UInt8} (h : bs.length ≤ Offset.max) :
    ∃ zeros, Text.buffer bs = .ok (bs ++ List.replicate (zeros + 1) 0) := by
  have hroom : Offset.max + 64 ≤ Offset.maxPosition := by decide
  have hone : Offset.addPositions bs.length 1 = .ok (bs.length + 1) := if_pos (by omega)
  have hall : Offset.addPositions (bs.length + 1) 63 = .ok (bs.length + 1 + 63) := if_pos (by omega)
  refine ⟨(bs.length + 1 + 63) / 64 * 64 - bs.length - 1, ?_⟩
  rw [buffer, hone, Trap.lift_ok, ok_bind, hall, Trap.lift_ok, ok_bind, if_neg (by omega), if_neg (by omega),
    Nat.sub_add_cancel (by omega)]
  rfl

lemma Cursor.onBuffer_eq {bs : List UInt8} {pos : Nat} (h : bs.length ≤ Offset.max) (hp : pos ≤ bs.length)
    (zeros : Nat) : onBuffer (bs ++ List.replicate (zeros + 1) 0) bs.length pos = .ok ⟨bs, pos⟩ := by
  have hfirst : Text.firstBytes? (bs ++ List.replicate (zeros + 1) 0) bs.length = some bs := by
    rw [Text.firstBytes?, if_pos (by simp), List.take_left]
  have hzero : (bs ++ List.replicate (zeros + 1) 0)[bs.length]? = some 0 := by
    rw [List.getElem?_append_right le_rfl, Nat.sub_self]
    rfl
  have hmove : Cursor.advance ⟨bs, 0⟩ pos = .ok ⟨bs, pos⟩ := by
    rw [advance, Offset.add_eq_ok (by simp only; omega), Nat.zero_add]
    rfl
  rw [onBuffer, hfirst, Trap.require_some, ok_bind, hzero, Trap.require_some, ok_bind, if_pos rfl,
    Nat.min_eq_left hp, hmove, Trap.lift_ok]

namespace Interpolation

variable {bs : List UInt8} {pos gap : Nat}

lemma length_of_opens (h : opens (bs.drop pos) = true) : pos + 2 ≤ bs.length := by
  obtain ⟨rest, hr⟩ := opens_iff.mp h
  have hlength := congrArg List.length hr
  rw [List.length_drop, List.length_cons, List.length_cons] at hlength
  omega

lemma opener?_drop_eq_some (h : opener? (bs.drop pos) = some gap) :
    opens (bs.drop (pos + gap)) = true ∧ ∀ m, pos ≤ m → m < pos + gap → opens (bs.drop m) = false := by
  have hspec := opener?_spec (bs.drop pos)
  simp only [h, List.drop_drop] at hspec
  refine ⟨hspec.1, fun m hle hlt => ?_⟩
  have hm := hspec.2 (m - pos) (by omega)
  rwa [Nat.add_sub_cancel' hle] at hm

lemma opener?_drop_eq_none (h : opener? (bs.drop pos) = none) {m : Nat} (hm : pos ≤ m) :
    opens (bs.drop m) = false := by
  have hspec := opener?_spec (bs.drop pos)
  simp only [h, List.drop_drop] at hspec
  have hm' := hspec (m - pos)
  rwa [Nat.add_sub_cancel' hm] at hm'

lemma openerFrom_eq (h : bs.length ≤ Offset.max) (hp : pos ≤ bs.length) :
    openerFrom bs pos = .ok ((opener? (bs.drop pos)).map (pos + ·)) := by
  rw [openerFrom, Text.bytesFrom?, if_pos hp, Trap.require_some, ok_bind]
  cases ho : opener? (bs.drop pos) with
  | none => rfl
  | some gap =>
    have hlength := length_of_opens (opener?_drop_eq_some ho).1
    simp only [Offset.addPositions_eq_ok (show pos + gap ≤ Offset.max by omega), Trap.lift_ok]
    rfl

lemma freeOpener?_eq_some {afterDollar : Bool} {n : Nat} (h : FreeAt afterDollar bs n)
    (hm : ∀ m < n, ¬ FreeAt afterDollar bs m) : freeOpener? afterDollar bs = some n := by
  have hs := freeOpener?_spec afterDollar bs
  cases hf : freeOpener? afterDollar bs with
  | none =>
    rw [hf] at hs
    exact absurd h (hs n)
  | some first =>
    rw [hf] at hs
    rcases Nat.lt_trichotomy first n with hlt | rfl | hgt
    · exact absurd hs.1 (hm first hlt)
    · rfl
    · exact absurd h (hs.2 n hgt)

lemma freeOpener?_eq_none {afterDollar : Bool} (h : ∀ n, ¬ FreeAt afterDollar bs n) :
    freeOpener? afterDollar bs = none := by
  have hs := freeOpener?_spec afterDollar bs
  cases hf : freeOpener? afterDollar bs with
  | none => rfl
  | some first =>
    rw [hf] at hs
    exact absurd hs.1 (h first)

lemma not_freeAt {afterDollar : Bool} {n : Nat} (h : opens (bs.drop n) = false) : ¬ FreeAt afterDollar bs n := by
  intro hfree
  rw [opens_of_freeAt hfree] at h
  cases h

lemma firstTurn_cases (h : bs.length ≤ Offset.max) (hp : pos ≤ bs.length) (hm : ∀ m < pos, ¬ FreeAt false bs m) :
    firstTurn bs pos = .ok (.inl (freeOpener? false bs)) ∨
      ∃ next, firstTurn bs pos = .ok (.inr next) ∧ pos < next ∧ next ≤ bs.length ∧
        ∀ m < next, ¬ FreeAt false bs m := by
  have hopener := openerFrom_eq h hp
  cases ho : opener? (bs.drop pos) with
  | none =>
    have hnone : freeOpener? false bs = none := by
      apply freeOpener?_eq_none
      intro n
      rcases Nat.lt_or_ge n pos with hlt | hge
      · exact hm n hlt
      · exact not_freeAt (opener?_drop_eq_none ho hge)
    left
    rw [firstTurn, hopener, ho, hnone]
    rfl
  | some gap =>
    obtain ⟨hopens, hbetween⟩ := opener?_drop_eq_some ho
    have hlength := length_of_opens hopens
    have hbefore : ∀ m < pos + gap, ¬ FreeAt false bs m := by
      intro m hlt
      rcases Nat.lt_or_ge m pos with hlt' | hge
      · exact hm m hlt'
      · exact not_freeAt (hbetween m hge hlt)
    have hoffset := Offset.ofPosition_eq (show pos + gap ≤ Offset.max by omega)
    have hle : pos ≤ pos + gap := Nat.le_add_right pos gap
    rw [ho, Option.map_some] at hopener
    generalize pos + gap = first at *
    cases first with
    | zero =>
      left
      have hfree : FreeAt false bs 0 := ⟨hopens, rfl⟩
      rw [firstTurn, hopener, freeOpener?_eq_some hfree hbefore]
      rfl
    | succ n =>
      obtain ⟨b, hb⟩ : ∃ b, bs[n]? = some b := ⟨_, List.getElem?_eq_getElem (by omega)⟩
      have hsub : Offset.sub (n + 1) 1 = .ok n := Offset.sub_eq_ok (Nat.le_add_left 1 n)
      have hadd : Offset.addPositions (n + 1) 1 = .ok (n + 2) := Offset.addPositions_eq_ok (by omega)
      rw [firstTurn, hopener, ok_bind]
      simp only [if_neg n.succ_ne_zero, hsub, hadd, Trap.lift_ok, ok_bind, hb, Trap.require_some, hoffset]
      by_cases hd : b = 0x24
      · right
        rw [if_pos hd]
        refine ⟨n + 2, rfl, by omega, hlength.trans' (Nat.le_succ _), ?_⟩
        intro m hlt
        rcases Nat.lt_or_eq_of_le (Nat.le_of_lt_succ hlt) with hlt | rfl
        · exact hbefore m hlt
        · exact fun hfree => hfree.2 (hd ▸ hb)
      · left
        have hfree : FreeAt false bs (n + 1) := by
          refine ⟨hopens, ?_⟩
          rw [hb]
          exact fun he => hd (Option.some.inj he)
        rw [if_neg hd, freeOpener?_eq_some hfree hbefore]
        rfl

lemma firstOpener_eq (h : bs.length ≤ Offset.max) : firstOpener bs = .ok (freeOpener? false bs) := by
  apply Trap.loop_eq (fun pos => pos ≤ bs.length ∧ ∀ m < pos, ¬ FreeAt false bs m) (fun _ => freeOpener? false bs)
  · rintro pos ⟨hp, hm⟩
    rcases firstTurn_cases h hp hm with hdone | ⟨next, hmore, hlt, hle, hbefore⟩
    · exact Or.inl hdone
    · exact Or.inr ⟨next, hmore, Nat.sub_lt_sub_left (hlt.trans_le hle) hlt, ⟨hle, hbefore⟩, rfl⟩
  · exact ⟨Nat.zero_le _, fun m hm => absurd hm (Nat.not_lt_zero m)⟩

namespace Probe

variable {r : Reader} {size level start : Nat}

lemma add_length (hv : r.Valid) :
    Offset.add r.cursor.pos r.scanner.next.1.length = .ok r.scanner.next.2.pos := by
  have hle := Token.read_length_le r.cursor.rest
  rw [Cursor.length_rest] at hle
  have hinside := hv.fits.inside
  have hsmall := hv.fits.small
  apply Offset.add_eq_ok
  change r.cursor.pos + (Token.read r.cursor.rest).length ≤ Offset.max
  omega

lemma pos_lt_next (hv : r.Valid) (hb : r.scanner.next.1.tag.boundary ≠ .endOfText) :
    r.cursor.pos < r.scanner.next.2.pos ∧ r.cursor.pos < r.cursor.source.length := by
  have hless : _ < r.cursor.rest.length := Scanner.next_rest_lt_of_boundary hb
  have hsum : _ = r.cursor.pos + r.cursor.rest.length := r.scanner.next_pos
  have hinside := hv.fits.inside
  rw [Cursor.length_rest] at hless hsum
  omega

lemma turn_opening (hv : r.Valid) (hb : r.scanner.next.1.tag.boundary = .opening) (hl : level ≤ r.cursor.pos) :
    turn size ⟨r, level, start⟩ =
      .ok (.inr ⟨r.resume r.scanner.next.2, level + 1, if level = 0 then r.cursor.pos else start⟩) := by
  have hlt := pos_lt_next hv (by simp [hb])
  have hsmall := hv.fits.small
  have hadd : Offset.add level 1 = .ok (level + 1) := Offset.add_eq_ok (by omega)
  simp only [turn, hv.next_eq, ok_bind, add_length hv, Trap.lift_ok, hb, hadd]
  rfl

lemma toEnd_of_inr (hv : r.Valid) (hsize : r.cursor.source.length = size)
    (hb : r.scanner.next.1.tag.boundary ≠ .endOfText) {level' start' : Nat}
    (ht : turn size ⟨r, level, start⟩ = .ok (.inr ⟨r.resume r.scanner.next.2, level', start'⟩)) :
    toEnd size ⟨r, level, start⟩ = toEnd size ⟨r.resume r.scanner.next.2, level', start'⟩ := by
  apply Trap.loop_of_inr ht
  have hlt := pos_lt_next hv hb
  change size - r.scanner.next.2.pos < size - r.cursor.pos
  omega

/-- An attempt never has more interpolations open than there are bytes before its reader. -/
lemma toEnd_eq (hv : r.Valid) (hsize : r.cursor.source.length = size) (hl : level ≤ r.cursor.pos) :
    toEnd size ⟨r, level, start⟩ = .ok (attemptFrom size level start r.scanner) := by
  generalize hs : r.scanner = s
  fun_induction attemptFrom size level start s generalizing r with
  | case1 start s hb ih | case2 start s hb level ih =>
    subst hs
    have hnext : r.scanner.next.1.tag.boundary ≠ .endOfText := by simp [hb]
    rw [toEnd_of_inr hv hsize hnext (turn_opening hv hb hl)]
    exact ih hv.next_valid hsize (Nat.lt_of_le_of_lt hl (pos_lt_next hv hnext).1) r.scanner_resume
  | case3 start s hb | case4 start s hb | case6 start s hb | case7 start s hb level | case8 start s hb =>
    subst hs
    apply Trap.loop_of_inl
    simp only [turn, hv.next_eq, ok_bind, add_length hv, Trap.lift_ok, hb]
    rfl
  | case5 start s hb level ih | case9 start s hb level ih =>
    subst hs
    have hnext : r.scanner.next.1.tag.boundary ≠ .endOfText := by simp [hb]
    have hlevel : level + 1 ≤ r.scanner.next.2.pos := by
      have hlt := pos_lt_next hv hnext
      omega
    refine (toEnd_of_inr hv hsize hnext ?_).trans (ih hv.next_valid hsize hlevel r.scanner_resume)
    simp only [turn, hv.next_eq, ok_bind, add_length hv, Trap.lift_ok, hb]
    rfl

end Probe

lemma attemptAt_eq (ht : Text.IsTail bs) (h : bs.length ≤ Offset.max) (hp : pos ≤ bs.length) (zeros : Nat) :
    attemptAt (bs ++ List.replicate (zeros + 1) 0) bs.length pos = .ok (attempt pos (bs.drop pos)) := by
  have hv : (Reader.ofCursor ⟨bs, pos⟩).Valid := ⟨⟨hp, h, ht⟩, by simp [Reader.ofCursor]⟩
  have hsize : pos + (bs.drop pos).length = bs.length := by rw [List.length_drop, Nat.add_sub_cancel' hp]
  rw [attemptAt, Cursor.onBuffer_eq h hp, ok_bind, attempt, hsize]
  exact Probe.toEnd_eq hv rfl (Nat.zero_le _)

lemma spansFrom_eq_attempt (gapLimit : Option Nat) (pos : Nat) (bs : List UInt8) :
    spansFrom gapLimit pos bs = (attempt pos bs).span?.toList ++
      match (attempt pos bs).resume? with
      | none => []
      | some resume => spansAfter gapLimit resume (bs.drop (resume - pos)) := by
  rw [spansFrom]
  congr 1
  split
  · rename_i hm
    rw [hm]
  · rename_i resume hm
    simp only [hm]
    rw [spansAfter]
    cases nextOpener? gapLimit (bs.drop (resume - pos)) with
    | none => rfl
    | some next => simp only [List.drop_drop]

namespace Search

variable {gapLimit : Option Nat} {s : Search} {resume : Nat}

structure Fits (gapLimit : Option Nat) (bs : List UInt8) (s : Search) : Prop where
  inside : s.pos + 2 ≤ bs.length
  counted : s.gaps ≤ s.pos
  allowed : ∀ limit ∈ gapLimit, s.gaps ≤ limit

def left (gapLimit : Option Nat) (s : Search) : Option Nat := gapLimit.map (· - s.gaps)

def pending (gapLimit : Option Nat) (bs : List UInt8) (s : Search) : List Span :=
  spansFrom (s.left gapLimit) s.pos (bs.drop s.pos)

lemma nextOpener?_left {gap : Nat} (hlimit : ∀ limit ∈ gapLimit, s.gaps ≤ limit) (ho : opener? bs = some (gap + 1))
    (pos : Nat) :
    nextOpener? (s.left gapLimit) bs =
      if gapLimit.any (· < s.gaps + 1) then none
      else some (gap + 1, left gapLimit ⟨pos, s.gaps + 1, s.spans⟩) := by
  cases gapLimit with
  | none => simp [left, nextOpener?, ho]
  | some limit =>
    have hle := hlimit limit rfl
    cases hmore : limit - s.gaps with
    | zero =>
      have hlt : decide (limit < s.gaps + 1) = true := decide_eq_true (by omega)
      simp only [left, Option.map_some, nextOpener?, ho, hmore, Option.any_some, hlt, if_true]
    | succ more =>
      have hlt : decide (limit < s.gaps + 1) = false := decide_eq_false (by omega)
      have hrest : limit - (s.gaps + 1) = more := by omega
      simp only [left, Option.map_some, nextOpener?, ho, hmore, Option.any_some, hlt, hrest, Bool.false_eq_true,
        if_false]

lemma moveOn_opener {gap : Nat} (h : bs.length ≤ Offset.max) (hr : resume ≤ bs.length) (hgaps : s.gaps < resume)
    (ho : opener? (bs.drop resume) = some gap) :
    moveOn gapLimit bs s resume =
      if gap = 0 then .ok (.inr { s with pos := resume })
      else if gapLimit.any (· < s.gaps + 1) then .ok (.inl s.spans)
      else .ok (.inr ⟨resume + gap, s.gaps + 1, s.spans⟩) := by
  have hlength := length_of_opens (opener?_drop_eq_some ho).1
  have hoffset := Offset.ofPosition_eq (show resume + gap ≤ Offset.max by omega)
  have hadd : Offset.add s.gaps 1 = .ok (s.gaps + 1) := Offset.add_eq_ok (by omega)
  rw [moveOn, openerFrom_eq h hr, ho, Option.map_some, ok_bind]
  simp only [hoffset, hadd, Trap.lift_ok, ok_bind]
  by_cases hz : gap = 0
  · simp only [hz, Nat.add_zero, Nat.lt_irrefl, if_false, if_true]
    rfl
  · rw [if_pos (by omega), if_neg hz]
    rfl

lemma moveOn_cases (h : bs.length ≤ Offset.max) (hr : resume ≤ bs.length) (hgaps : s.gaps < resume)
    (hlimit : ∀ limit ∈ gapLimit, s.gaps ≤ limit) :
    (moveOn gapLimit bs s resume = .ok (.inl s.spans) ∧
        spansAfter (s.left gapLimit) resume (bs.drop resume) = []) ∨
      ∃ t, moveOn gapLimit bs s resume = .ok (.inr t) ∧ t.Fits gapLimit bs ∧ resume ≤ t.pos ∧ t.spans = s.spans ∧
        spansAfter (s.left gapLimit) resume (bs.drop resume) = t.pending gapLimit bs := by
  cases ho : opener? (bs.drop resume) with
  | none =>
    left
    simp only [moveOn, openerFrom_eq h hr, ho, spansAfter, nextOpener?, and_true]
    rfl
  | some gap =>
    have hlength := length_of_opens (opener?_drop_eq_some ho).1
    have hmove : moveOn gapLimit bs s resume = _ := moveOn_opener h hr hgaps ho
    cases gap with
    | zero =>
      right
      refine ⟨{ s with pos := resume }, hmove, ⟨hlength, hgaps.le, hlimit⟩, le_rfl, rfl, ?_⟩
      simp only [spansAfter, nextOpener?, ho]
      rfl
    | succ gap =>
      rw [if_neg gap.succ_ne_zero] at hmove
      have hnext := nextOpener?_left hlimit ho (resume + (gap + 1))
      by_cases hany : gapLimit.any (· < s.gaps + 1) = true
      · left
        rw [if_pos hany] at hmove hnext
        exact ⟨hmove, by rw [spansAfter, hnext]⟩
      · right
        rw [if_neg hany] at hmove hnext
        refine ⟨_, hmove, ⟨hlength, ?_, ?_⟩, Nat.le_add_right _ _, rfl, ?_⟩
        · simp only
          omega
        · intro limit hl
          simpa [Option.mem_def.mp hl] using hany
        · simp only [spansAfter, hnext, pending, List.drop_drop]

lemma moveOn_resume (h : bs.length ≤ Offset.max) (hf : s.Fits gapLimit bs)
    (hr : (attempt s.pos (bs.drop s.pos)).resume? = some resume) {found : Search}
    (he : found = { s with spans := s.spans ++ (attempt s.pos (bs.drop s.pos)).span?.toList }) :
    moveOn gapLimit bs found resume = .ok (.inl (s.spans ++ s.pending gapLimit bs)) ∨
      ∃ t, moveOn gapLimit bs found resume = .ok (.inr t) ∧ t.Fits gapLimit bs ∧
        s.pos < t.pos ∧ t.spans ++ t.pending gapLimit bs = s.spans ++ s.pending gapLimit bs := by
  have hin := hf.inside
  obtain ⟨hlt, hle⟩ := attempt_resume_bounds hr
  rw [List.length_drop] at hle
  have hpending : s.pending gapLimit bs = _ := spansFrom_eq_attempt (s.left gapLimit) s.pos (bs.drop s.pos)
  simp only [hr, List.drop_drop, Nat.add_sub_cancel' hlt.le] at hpending
  have hall : s.spans ++ s.pending gapLimit bs =
      found.spans ++ spansAfter (found.left gapLimit) resume (bs.drop resume) := by
    rw [hpending, ← List.append_assoc, he]
    rfl
  have hgaps : found.gaps = s.gaps := by rw [he]
  rw [hall]
  rcases moveOn_cases h (by omega) (hgaps ▸ Nat.lt_of_le_of_lt hf.counted hlt) (hgaps ▸ hf.allowed) with
    ⟨hm, hnone⟩ | ⟨t, hm, htf, hpos, hspans, hsome⟩
  · left
    rw [hm, hnone, List.append_nil]
  · right
    exact ⟨t, hm, htf, Nat.lt_of_lt_of_le hlt hpos, by rw [hspans, hsome]⟩

lemma turn_cases (ht : Text.IsTail bs) (h : bs.length ≤ Offset.max) (zeros : Nat) (hf : s.Fits gapLimit bs) :
    turn gapLimit bs (bs ++ List.replicate (zeros + 1) 0) s = .ok (.inl (s.spans ++ s.pending gapLimit bs)) ∨
      ∃ t, turn gapLimit bs (bs ++ List.replicate (zeros + 1) 0) s = .ok (.inr t) ∧ t.Fits gapLimit bs ∧
        s.pos < t.pos ∧ t.spans ++ t.pending gapLimit bs = s.spans ++ s.pending gapLimit bs := by
  have hin := hf.inside
  have hpending : s.pending gapLimit bs = _ := spansFrom_eq_attempt (s.left gapLimit) s.pos (bs.drop s.pos)
  rw [turn, if_pos (by omega), attemptAt_eq ht h (by omega), ok_bind]
  cases ha : attempt s.pos (bs.drop s.pos) with
  | closed span =>
    apply moveOn_resume h hf
    · rw [ha]
      rfl
    · rw [ha]
      rfl
  | unterminated span =>
    left
    rw [hpending, ha]
    rfl
  | exhausted =>
    left
    rw [hpending, ha]
    change _ = Except.ok (Sum.inl (s.spans ++ []))
    rw [List.append_nil]
    rfl
  | resync offset =>
    have hr : (attempt s.pos (bs.drop s.pos)).resume? = some (offset + 1) := by
      rw [ha]
      rfl
    have hbounds := attempt_resume_bounds hr
    rw [List.length_drop] at hbounds
    have hadd : Offset.add offset 1 = .ok (offset + 1) := Offset.add_eq_ok (by omega)
    simp only [hadd, Trap.lift_ok, ok_bind]
    apply moveOn_resume h hf hr
    simp [ha, Attempt.span?]

lemma toEnd_eq (ht : Text.IsTail bs) (h : bs.length ≤ Offset.max) (zeros : Nat) (hf : s.Fits gapLimit bs) :
    toEnd gapLimit bs (bs ++ List.replicate (zeros + 1) 0) s = .ok (s.spans ++ s.pending gapLimit bs) := by
  apply Trap.loop_eq (Fits gapLimit bs) (fun s => s.spans ++ s.pending gapLimit bs) _ hf
  intro s hs
  rcases turn_cases ht h zeros hs with hdone | ⟨t, hmore, htf, hlt, hall⟩
  · exact Or.inl hdone
  · have hin := htf.inside
    exact Or.inr ⟨t, hmore, Nat.sub_lt_sub_left (by omega) hlt, htf, hall⟩

end Search

lemma search_eq (gapLimit : Option Nat) (ht : Text.IsTail bs) (h : bs.length ≤ Offset.max) :
    search gapLimit bs = .ok (scanBytes gapLimit bs) := by
  rw [search, firstOpener_eq h, ok_bind, scanBytes]
  have hspec := freeOpener?_spec false bs
  cases hfirst : freeOpener? false bs with
  | none => rfl
  | some first =>
    rw [hfirst] at hspec
    have hin := length_of_opens (opens_of_freeAt hspec.1)
    obtain ⟨zeros, hbuffer⟩ := Text.buffer_eq h
    have hfits : Search.Fits gapLimit bs ⟨first, 0, []⟩ := ⟨hin, Nat.zero_le _, fun _ _ => Nat.zero_le _⟩
    simp only [hbuffer, ok_bind]
    rw [Search.toEnd_eq ht h zeros hfits, Search.pending, Search.left]
    simp

end Interpolation

end HclLiteral
