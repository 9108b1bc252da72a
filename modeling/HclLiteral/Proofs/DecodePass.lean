import HclLiteral.Proofs.EscapeBytes
import HclLiteral.Proofs.PieceSequence
import Mathlib.Logic.Relation

namespace HclLiteral

lemma mapM_eq_ok {ε α β : Type} {f : α → Except ε β} {g : α → β} {as : List α}
    (h : ∀ a ∈ as, f a = .ok (g a)) : as.mapM f = .ok (as.map g) := by
  induction as with
  | nil => rfl
  | cons a as ih =>
    rw [List.forall_mem_cons] at h
    rw [List.mapM_cons, h.1, ok_bind, ih h.2, ok_bind]
    rfl

lemma Braces.recount_succ {n : Nat} (hn : n + 1 < Offset.max) (isLeft isRight : Bool) :
    recount isLeft isRight (n + 1) = .ok (if isLeft then n + 2 else if isRight then n else n + 1) := by
  rw [recount, Offset.add_eq_ok hn, Offset.sub_eq_ok (Nat.le_add_left 1 n)]
  cases isLeft <;> cases isRight <;> rfl

namespace Escape

open Text

namespace Pass

variable {lossy interpolations : Bool} {text before rest : List Char} {p : Pass} {c : Char}

def take (p : Pass) (piece : Piece) (braces : Nat) : Pass :=
  ⟨p.pos + size piece.source, braces, p.value ++ piece.value, p.offsets ++ piece.offsets p.pos⟩

/-- The pass has read the first of two parts of the text. Each open brace is one of the bytes read. -/
structure Fits (text before rest : List Char) (p : Pass) : Prop where
  source : text = before ++ rest
  pos : p.pos = size before
  small : size text ≤ Offset.max
  counted : p.braces ≤ p.pos

def meet (lossy : Bool) (p : Pass) : Piece → Except DecodeError Pass ⊕ Pass
  | .malformed source fault =>
    if lossy then .inr (p.take (.malformed source fault) 0) else .inl (.error ⟨p.pos, fault⟩)
  | piece => .inr (p.take piece 0)

lemma meet_cases (lossy : Bool) (p : Pass) (piece : Piece) :
    p.meet lossy piece = .inr (p.take piece 0) ∨ ∃ fault, p.meet lossy piece = .inl (.error ⟨p.pos, fault⟩) := by
  cases piece with
  | verbatim source | escape source meaning => exact Or.inl rfl
  | malformed source fault =>
    cases lossy with
    | true => exact Or.inl rfl
    | false => exact Or.inr ⟨fault, rfl⟩

@[simp] lemma take_nil (p : Pass) : p.take (.verbatim []) p.braces = p := by
  simp [take, Piece.source, Piece.value, Piece.offsets]

lemma take_verbatim (p : Pass) (front back : List Char) (m n : Nat) :
    (p.take (.verbatim front) m).take (.verbatim back) n = p.take (.verbatim (front ++ back)) n := by
  simp only [take, Piece.source, Piece.value, Piece.offsets, size_append, List.append_assoc, Nat.add_assoc,
    List.range'_append_1]

namespace Fits

lemma size_eq (h : Fits text before rest p) : size text = p.pos + size rest := by
  rw [h.source, size_append, h.pos]

lemma braces_le (h : Fits text before rest p) : p.braces ≤ size text := by
  rw [h.size_eq]
  exact h.counted.trans (Nat.le_add_right _ _)

lemma take (piece : Piece) (h : Fits text before (piece.source ++ rest) p) {braces : Nat}
    (hb : braces ≤ p.pos + size piece.source) : Fits text (before ++ piece.source) rest (p.take piece braces) where
  source := h.source.trans (List.append_assoc _ _ _).symm
  pos := (congrArg (· + size piece.source) h.pos).trans (size_append _ _).symm
  small := h.small
  counted := hb

lemma charAt?_eq (h : Fits text before rest p) : charAt? text p.pos = rest.head? := by
  rw [charAt?, h.source, h.pos, charsFrom?_append]
  rfl

lemma skip_eq (h : Fits text before (c :: rest) p) : p.skip c = .ok (p.take (.verbatim [c]) p.braces) := by
  have hsize := h.size_eq
  have hsmall := h.small
  rw [size_cons] at hsize
  have hcopy : (List.range c.utf8Size).mapM
      (fun i => (liftM (Offset.add (Offset.ofPosition p.pos) i) : Except Trap Nat)) =
        .ok ((List.range c.utf8Size).map (p.pos + ·)) := by
    apply mapM_eq_ok
    intro i hi
    rw [List.mem_range] at hi
    rw [Offset.ofPosition_eq (by omega), Offset.add_eq_ok (by omega), Trap.lift_ok]
  rw [skip, copy, hcopy, Offset.addPositions_eq_ok (by omega), ← List.range'_eq_map_range]
  rfl

lemma turn_nil (h : Fits text before [] p) : turn lossy interpolations text p = .ok (.inl (.ok p)) := by
  rw [turn, h.charAt?_eq]
  rfl

lemma inside (h : Fits text before (c :: rest) p) {n : Nat} (hb : p.braces = n + 1) :
    Fits text (before ++ [c]) rest
      (p.take (.verbatim [c]) (if c = '{' then n + 2 else if c = '}' then n else n + 1)) := by
  apply h.take (.verbatim [c])
  have hcounted := h.counted
  have hc := c.utf8Size_pos
  change _ ≤ p.pos + c.utf8Size
  split
  · omega
  · split <;> omega

lemma turn_inside (h : Fits text before (c :: rest) p) {n : Nat} (hb : p.braces = n + 1) :
    turn lossy interpolations text p =
      .ok (.inr (p.take (.verbatim [c]) (if c = '{' then n + 2 else if c = '}' then n else n + 1))) := by
  have hsize := h.size_eq
  have hsmall := h.small
  have hcounted := h.counted
  have hc := c.utf8Size_pos
  rw [size_cons] at hsize
  rw [turn, h.charAt?_eq]
  simp only [List.head?_cons, hb, n.succ_pos, if_true, Braces.recount_succ (show n + 1 < Offset.max by omega),
    Trap.lift_ok, ok_bind, h.skip_eq, decide_eq_true_eq]
  rfl

lemma opens_eq (h : Fits text before (c :: rest) p) :
    (c = '$' && (encode text)[p.pos + 1]? == some 0x7B) = Braces.opens (c :: rest) := by
  rw [h.pos, opens_at h.source]

lemma turn_opener (h : Fits text before ('$' :: '{' :: rest) p) (hb : p.braces = 0) :
    turn lossy true text p = .ok (.inr (p.take (.verbatim ['$', '{']) 1)) := by
  have hsize := h.size_eq
  have hsmall := h.small
  have hbyte : ((encode text)[p.pos + 1]? == some 0x7B) = true := h.opens_eq
  have hnext : Fits text (before ++ ['$']) ('{' :: rest) (p.take (.verbatim ['$']) 0) :=
    h.take (.verbatim ['$']) (Nat.zero_le _)
  have hroom : p.pos + 1 ≤ Offset.max := by
    change _ = p.pos + (1 + size ('{' :: rest)) at hsize
    omega
  rw [turn, h.charAt?_eq]
  simp only [List.head?_cons, hb, Nat.lt_irrefl, if_false, Offset.addPositions_eq_ok hroom, Trap.lift_ok, ok_bind,
    hbyte, h.skip_eq, hnext.skip_eq, take_verbatim]
  rfl

lemma keep_eq (h : Fits text before ('\\' :: rest) p) (hb : p.braces = 0) :
    p.keep text = .ok (p.take (.verbatim ('\\' :: rest.take 1)) 0) := by
  have hnext : Fits text (before ++ ['\\']) rest (p.take (.verbatim ['\\']) 0) :=
    h.take (.verbatim ['\\']) (Nat.zero_le _)
  rw [keep, h.skip_eq, hb, ok_bind, hnext.charAt?_eq]
  cases rest with
  | nil => rfl
  | cons c rest =>
    rw [List.head?_cons, List.take_succ_cons, List.take_zero]
    exact hnext.skip_eq.trans (congrArg Except.ok (take_verbatim _ _ _ _ _))

lemma turn_piece (h : Fits text before (c :: rest) p) (hb : p.braces = 0)
    (ho : (interpolations && Braces.opens (c :: rest)) = false) :
    turn lossy interpolations text p = .ok (p.meet lossy (Piece.read interpolations c rest)) := by
  have hsize := h.size_eq
  have hsmall := h.small
  have hc := c.utf8Size_pos
  have hopens := h.opens_eq
  rw [size_cons] at hsize
  rw [turn, h.charAt?_eq]
  simp only [List.head?_cons, hb, Nat.lt_irrefl, if_false,
    Offset.addPositions_eq_ok (show p.pos + 1 ≤ Offset.max by omega), Trap.lift_ok, ok_bind, Bool.and_assoc,
    hopens, ho, Bool.false_eq_true]
  by_cases hback : c = '\\'
  · subst hback
    have hescape := escapeAt_eq h.source hsmall
    rw [← h.pos] at hescape
    rw [if_pos rfl, hescape, ok_bind, Piece.read_backslash]
    cases Escape.read rest with
    | ok r =>
      have hend : p.pos + 1 + size (rest.take r.length) = p.pos + size ('\\' :: rest.take r.length) :=
        Nat.add_assoc _ _ _
      simp only [parsed, write, meet, Pass.take, Offset.ofPosition_eq (show p.pos ≤ Offset.max by omega), hend, hb]
      rfl
    | error fault =>
      cases lossy with
      | true =>
        simp only [parsed, h.keep_eq hb]
        rfl
      | false => rfl
  · rw [if_neg hback, h.skip_eq, Piece.read, if_neg (by simp [ho]), if_neg hback, hb]
    rfl

/-- All that a turn can do: end at the end of the text, move over a piece, or end at a malformed escape. -/
lemma turn_cases (h : Fits text before rest p) :
    (rest = [] ∧ turn lossy interpolations text p = .ok (.inl (.ok p))) ∨
      (∃ piece after braces, rest = piece.source ++ after ∧
        braces ≤ p.pos + size piece.source ∧ turn lossy interpolations text p = .ok (.inr (p.take piece braces))) ∨
      ∃ e, turn lossy interpolations text p = .ok (.inl (.error e)) := by
  cases rest with
  | nil => exact Or.inl ⟨rfl, h.turn_nil⟩
  | cons c rest =>
    cases hb : p.braces with
    | succ n => exact Or.inr (Or.inl ⟨.verbatim [c], rest, _, rfl, (h.inside hb).counted, h.turn_inside hb⟩)
    | zero =>
      by_cases ho : (interpolations && Braces.opens (c :: rest)) = true
      · obtain ⟨rfl, hopens⟩ := Bool.and_eq_true_iff.mp ho
        obtain ⟨rfl, hh⟩ := Piece.opens_cons_iff.mp hopens
        obtain ⟨after, rfl⟩ := List.head?_eq_some_iff.mp hh
        exact Or.inr (Or.inl ⟨.verbatim ['$', '{'], after, 1, rfl, Nat.le_add_left 1 _, h.turn_opener hb⟩)
      · have hturn : turn lossy interpolations text p = _ := h.turn_piece hb (Bool.eq_false_iff.mpr ho)
        have hsource := Piece.read_source_append interpolations c rest
        rcases meet_cases lossy p (Piece.read interpolations c rest) with hm | ⟨fault, hm⟩
        · exact Or.inr (Or.inl ⟨_, _, 0, hsource.symm, Nat.zero_le _, hturn.trans (congrArg Except.ok hm)⟩)
        · exact Or.inr (Or.inr ⟨_, hturn.trans (congrArg Except.ok hm)⟩)

lemma toEnd_take (piece : Piece) {braces : Nat} (h : Fits text before (piece.source ++ rest) p)
    (hs : 0 < size piece.source) (ht : turn lossy interpolations text p = .ok (.inr (p.take piece braces))) :
    p.toEnd lossy interpolations text = (p.take piece braces).toEnd lossy interpolations text := by
  apply Trap.loop_of_inr ht
  have hsize := h.size_eq
  rw [size_append] at hsize
  change size text - (p.pos + size piece.source) < size text - p.pos
  omega

lemma toEnd_inside (lossy interpolations : Bool) (h : Fits text before rest p) {n : Nat} (hb : p.braces = n) :
    ∃ braces, (braces = 0 ∨ rest.drop (Braces.closeLength n rest) = []) ∧ braces ≤ size text ∧
      p.toEnd lossy interpolations text =
        (p.take (.verbatim (rest.take (Braces.closeLength n rest))) braces).toEnd lossy interpolations text := by
  induction rest generalizing before p n with
  | nil => exact ⟨p.braces, Or.inr List.drop_nil, h.braces_le, by rw [List.take_nil, take_nil]⟩
  | cons c rest ih =>
    cases n with
    | zero => exact ⟨p.braces, Or.inl hb, h.braces_le, by rw [Braces.closeLength, List.take_zero, take_nil]⟩
    | succ n =>
      have hmove : p.toEnd lossy interpolations text = _ :=
        h.toEnd_take (.verbatim [c]) c.utf8Size_pos (h.turn_inside hb)
      obtain ⟨braces, hclosed, hcount, hrest⟩ := ih (h.inside hb) rfl
      refine ⟨braces, ?_, hcount, ?_⟩
      · rwa [Braces.closeLength, Nat.add_comm, List.drop_succ_cons]
      · rw [hmove, hrest, take_verbatim, Braces.closeLength, Nat.add_comm 1, List.take_succ_cons]
        rfl

end Fits

def outcome (lossy : Bool) (p : Pass) (ps : List Piece) : Except DecodeError Decoded :=
  match firstError? lossy p.pos ps with
  | some e => .error e
  | none => .ok ⟨String.ofList (p.value ++ ps.flatMap Piece.value), p.offsets ++ offsetTable p.pos ps⟩

lemma outcome_cons {piece : Piece} (hp : piece.Admitted lossy) (ps : List Piece) (braces : Nat) :
    p.outcome lossy (piece :: ps) = (p.take piece braces).outcome lossy ps := by
  have herror : firstError? lossy p.pos (piece :: ps) = firstError? lossy (p.pos + size piece.source) ps := by
    cases piece with
    | verbatim source | escape source meaning => rfl
    | malformed source fault =>
      cases lossy with
      | true => rfl
      | false => exact absurd (hp rfl) id
  rw [outcome, outcome, herror, take, List.flatMap_cons, offsetTable, List.append_assoc, List.append_assoc]

lemma Fits.toEnd_island (lossy : Bool) {cs : List Char} (h : Fits text before ('$' :: '{' :: cs) p)
    (hb : p.braces = 0) :
    let source := ['$', '{'] ++ cs.take (Braces.closeLength 1 cs)
    let after := cs.drop (Braces.closeLength 1 cs)
    ∃ braces, (braces = 0 ∨ after = []) ∧ Fits text (before ++ source) after (p.take (.verbatim source) braces) ∧
      p.toEnd lossy true text = (p.take (.verbatim source) braces).toEnd lossy true text := by
  intro source after
  have hopen : p.toEnd lossy true text = _ :=
    h.toEnd_take (.verbatim ['$', '{']) Nat.two_pos (h.turn_opener hb)
  have hinside : Fits text (before ++ ['$', '{']) cs (p.take (.verbatim ['$', '{']) 1) :=
    h.take (.verbatim ['$', '{']) (Nat.le_add_left 1 _)
  have hsource : Fits text before (source ++ after) p := by
    rw [List.append_assoc, List.take_append_drop]
    exact h
  obtain ⟨braces, hclosed, hcount, hmove⟩ := hinside.toEnd_inside lossy true (n := 1) rfl
  rw [take_verbatim] at hmove
  refine ⟨braces, hclosed, hsource.take (.verbatim source) ?_, hopen.trans hmove⟩
  rcases hclosed with rfl | hnil
  · exact Nat.zero_le _
  · change after = [] at hnil
    rwa [hsource.size_eq, hnil, List.append_nil] at hcount

lemma Fits.toEnd_piece (lossy : Bool) {cs : List Char} (h : Fits text before (c :: cs) p) (hb : p.braces = 0)
    {piece : Piece} (hp : Piece.read interpolations c cs = piece) {after : List Char}
    (ha : piece.source ++ after = c :: cs) :
    (piece.Admitted lossy ∧ ∃ braces, (braces = 0 ∨ after = []) ∧
        Fits text (before ++ piece.source) after (p.take piece braces) ∧
        p.toEnd lossy interpolations text = (p.take piece braces).toEnd lossy interpolations text) ∨
      ∃ source fault, piece = .malformed source fault ∧ lossy = false ∧
        p.toEnd lossy interpolations text = .ok (.error ⟨p.pos, fault⟩) := by
  by_cases ho : (interpolations && Braces.opens (c :: cs)) = true
  · obtain ⟨rfl, hopens⟩ := Bool.and_eq_true_iff.mp ho
    obtain ⟨rfl, hh⟩ := Piece.opens_cons_iff.mp hopens
    obtain ⟨cs, rfl⟩ := List.head?_eq_some_iff.mp hh
    have hregion : piece = .verbatim (['$', '{'] ++ cs.take (Braces.closeLength 1 cs)) := by
      rw [← hp, Piece.read_opener, Braces.region, Nat.add_comm]
      rfl
    subst hregion
    have hafter : after = cs.drop (Braces.closeLength 1 cs) := by
      have hcs : cs.take (Braces.closeLength 1 cs) ++ after = cs :=
        (List.cons.inj (List.cons.inj ha).2).2
      conv_rhs at hcs => rw [← List.take_append_drop (Braces.closeLength 1 cs) cs]
      exact List.append_cancel_left hcs
    subst hafter
    exact Or.inl ⟨fun _ => trivial, h.toEnd_island lossy hb⟩
  · have hsource : Fits text before (piece.source ++ after) p := ha ▸ h
    have hturn : turn lossy interpolations text p = .ok (p.meet lossy piece) :=
      hp ▸ h.turn_piece hb (Bool.eq_false_iff.mpr ho)
    have hpos : 0 < size piece.source := by
      have hlength := Piece.read_source_pos interpolations c cs
      rw [hp, List.length_pos_iff] at hlength
      exact Nat.pos_of_ne_zero (mt eq_nil_of_size_eq_zero hlength)
    cases piece with
    | verbatim source | escape source meaning =>
      exact Or.inl ⟨fun _ => trivial, 0, Or.inl rfl, hsource.take _ (Nat.zero_le _), hsource.toEnd_take _ hpos hturn⟩
    | malformed source fault =>
      cases lossy with
      | true =>
        exact Or.inl ⟨fun hl => Bool.noConfusion hl, 0, Or.inl rfl, hsource.take _ (Nat.zero_le _),
          hsource.toEnd_take _ hpos hturn⟩
      | false => exact Or.inr ⟨source, fault, rfl, rfl, Trap.loop_of_inl hturn⟩

lemma Fits.toEnd_eq (h : Fits text before rest p) (hb : p.braces = 0 ∨ rest = []) :
    (p.toEnd lossy interpolations text >>= fun o => .ok (o.map (decoded text))) =
      .ok (p.outcome lossy (pieces interpolations rest)) := by
  fun_induction pieces interpolations rest generalizing before p with
  | case1 =>
    have hend : p.toEnd lossy interpolations text = .ok (.ok p) := Trap.loop_of_inl h.turn_nil
    have hsize : size text = p.pos := h.size_eq
    rw [hend, ok_bind, Except.map, decoded, Offset.ofPosition_eq h.small, hsize, outcome, List.flatMap_nil,
      List.append_nil]
    rfl
  | case2 c cs ih =>
    have hb : p.braces = 0 := hb.resolve_right (List.cons_ne_nil _ _)
    rcases h.toEnd_piece lossy hb rfl (Piece.read_source_append interpolations c cs) with
      ⟨hadmitted, braces, hnext, hfits, hmove⟩ | ⟨source, fault, hpiece, rfl, hend⟩
    · rw [hmove, ih hfits hnext, outcome_cons hadmitted]
    · rw [hend, ok_bind, hpiece]
      rfl

lemma fits_start (h : size text ≤ Offset.max) : Fits text [] text start where
  source := rfl
  pos := rfl
  small := h
  counted := Nat.le_refl 0

def Reached (lossy interpolations : Bool) (text : List Char) : Pass → Prop :=
  Relation.ReflTransGen (fun p q => turn lossy interpolations text p = .ok (.inr q)) start

lemma Reached.exists_fits (h : size text ≤ Offset.max) (hr : Reached lossy interpolations text p) :
    ∃ before rest, Fits text before rest p := by
  induction hr with
  | refl => exact ⟨[], text, fits_start h⟩
  | tail _ ht ih =>
    obtain ⟨before, rest, hfits⟩ := ih
    rcases hfits.turn_cases with ⟨-, he⟩ | ⟨piece, after, braces, rfl, hcount, he⟩ | ⟨e, he⟩
    · exact absurd (ht.symm.trans he) (by simp)
    · obtain rfl := Sum.inr.inj (Except.ok.inj (ht.symm.trans he))
      exact ⟨_, after, hfits.take piece hcount⟩
    · exact absurd (ht.symm.trans he) (by simp)

lemma Reached.isBoundary (h : size text ≤ Offset.max) (hr : Reached lossy interpolations text p) :
    IsBoundary text p.pos := by
  obtain ⟨before, rest, hfits⟩ := hr.exists_fits h
  exact isBoundary_iff.mpr ⟨before, rest, hfits.source, hfits.pos.symm⟩

lemma Reached.pos_of_end {q : Pass} (h : size text ≤ Offset.max) (hr : Reached lossy interpolations text p)
    (ht : turn lossy interpolations text p = .ok (.inl (.ok q))) : q = p ∧ p.pos = size text := by
  obtain ⟨before, rest, hfits⟩ := hr.exists_fits h
  rcases hfits.turn_cases with ⟨rfl, he⟩ | ⟨piece, after, braces, rfl, hcount, he⟩ | ⟨e, he⟩
  · refine ⟨?_, hfits.size_eq.symm⟩
    exact Except.ok.inj (Sum.inl.inj (Except.ok.inj (ht.symm.trans he)))
  · exact absurd (ht.symm.trans he) (by simp)
  · exact absurd (ht.symm.trans he) (by simp)

lemma run_eq (lossy interpolations : Bool) {text : String} (h : size text.toList ≤ Offset.max) :
    run lossy interpolations text.toList = .ok (decodePieces lossy interpolations text) :=
  (fits_start h).toEnd_eq (Or.inl rfl)

lemma verbatim_eq {text : String} (h : size text.toList ≤ Offset.max) : verbatim text = Decoded.verbatim text := by
  rw [verbatim, Offset.ofPosition_eq h, Decoded.verbatim]

lemma decode_eq (interpolations : Bool) {text : String} (h : size text.toList ≤ Offset.max) :
    decode interpolations text = .ok (Escape.decode interpolations text) := by
  rw [decode, Escape.decode, run_eq _ _ h, verbatim_eq h]
  split
  · rfl
  · rfl

lemma decodeLossy_eq (interpolations : Bool) {text : String} (h : size text.toList ≤ Offset.max) :
    decodeLossy interpolations text = .ok (Escape.decodeLossy interpolations text) := by
  rw [decodeLossy, Escape.decodeLossy, run_eq _ _ h, verbatim_eq h]
  split
  · rw [decodePieces_lossy]
    rfl
  · rfl

end Pass

end Escape

end HclLiteral
