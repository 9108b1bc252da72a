import HclLiteral.Fragment.Sweep
import HclLiteral.Proofs.DecodePass
import HclLiteral.Proofs.FragmentTiling

namespace HclLiteral

open Text

lemma Trap.loop_steps {σ α : Type} {measure : σ → Nat} {turn : σ → Except Trap (α ⊕ σ)} (state : Nat → σ) (n : Nat)
    (h : ∀ i < n, turn (state i) = .ok (.inr (state (i + 1))) ∧ measure (state (i + 1)) < measure (state i)) :
    loop measure turn (state 0) = loop measure turn (state n) := by
  induction n with
  | zero => rfl
  | succ n ih =>
    obtain ⟨ht, hm⟩ := h n n.lt_succ_self
    rw [ih fun i hi => h i (hi.trans n.lt_succ_self), loop_of_inr ht hm]

namespace Braces

variable {text before rest : List Char} {c : Char} {n : Nat}

lemma closeTurn_byte {bs : List UInt8} {pos : Nat} {b : UInt8} (hb : bs[pos]? = some b) (hn : n + 1 < Offset.max)
    (hpos : pos + 1 ≤ Offset.max) :
    closeTurn bs (pos, n + 1) =
      .ok (.inr (pos + 1, if b = 0x7B then n + 2 else if b = 0x7D then n else n + 1)) := by
  obtain ⟨hlt, -⟩ := List.getElem?_eq_some_iff.mp hb
  simp only [closeTurn, hlt, n.succ_pos, and_self, if_true, hb, Trap.require_some, ok_bind, recount_succ hn,
    Offset.addPositions_eq_ok hpos, Trap.lift_ok, decide_eq_true_eq]
  rfl

lemma closeFrom_of_not {bs : List UInt8} {pos : Nat} (h : ¬ (pos < bs.length ∧ 0 < n)) :
    closeFrom bs pos n = .ok pos := by
  apply Trap.loop_of_inl
  simp only [closeTurn, if_neg h]
  rfl

lemma closeFrom_char (ht : text = before ++ c :: rest) (hs : size text ≤ Offset.max) (hn : n + 1 ≤ size before) :
    closeFrom (encode text) (size before) (n + 1) =
      closeFrom (encode text) (size before + c.utf8Size)
        (if c = '{' then n + 2 else if c = '}' then n else n + 1) := by
  have hsize : size text = size before + (c.utf8Size + size rest) := by rw [ht, size_append, size_cons]
  have hturn {i : Nat} (hi : i < c.utf8Size) : closeTurn (encode text) (size before + i, n + 1) =
      .ok (.inr (size before + (i + 1), if c = '{' then n + 2 else if c = '}' then n else n + 1)) := by
    obtain ⟨b, hb, hd⟩ := byte_of_char ht hi
    have hleft : b = 0x7B ↔ c = '{' := hd '{' (by decide)
    have hright : b = 0x7D ↔ c = '}' := hd '}' (by decide)
    rw [closeTurn_byte hb (by omega) (by omega)]
    simp only [hleft, hright, Nat.add_assoc]
  have hmeasure {i : Nat} (hi : i < c.utf8Size) :
      (encode text).length - (size before + (i + 1)) < (encode text).length - (size before + i) := by
    rw [length_encode]
    omega
  by_cases hbrace : c.utf8Size = 1
  · have hzero := c.utf8Size_pos
    rw [hbrace]
    exact Trap.loop_of_inr (hturn hzero) (hmeasure hzero)
  · have hplain : (if c = '{' then n + 2 else if c = '}' then n else n + 1) = n + 1 := by
      rw [if_neg, if_neg]
      · rintro rfl
        exact hbrace rfl
      · rintro rfl
        exact hbrace rfl
    rw [hplain] at hturn ⊢
    exact Trap.loop_steps (fun i => (size before + i, n + 1)) c.utf8Size fun i hi => ⟨hturn hi, hmeasure hi⟩

lemma closeFrom_eq (ht : text = before ++ rest) (hs : size text ≤ Offset.max) (hn : n ≤ size before) :
    closeFrom (encode text) (size before) n = .ok (size before + size (rest.take (closeLength n rest))) := by
  induction rest generalizing before n with
  | nil =>
    have hend : ¬ (size before < (encode text).length ∧ 0 < n) := by
      rw [length_encode, ht, List.append_nil]
      omega
    rw [List.take_nil, size_nil, Nat.add_zero, closeFrom_of_not hend]
  | cons c rest ih =>
    cases n with
    | zero =>
      rw [closeLength, List.take_zero, size_nil, Nat.add_zero, closeFrom_of_not (by omega)]
    | succ n =>
      have hnext : text = before ++ [c] ++ rest := ht.trans (List.append_cons _ _ _)
      have hsize : size (before ++ [c]) = size before + c.utf8Size := size_append before [c]
      have hc := c.utf8Size_pos
      have hcount : (if c = '{' then n + 2 else if c = '}' then n else n + 1) ≤ size (before ++ [c]) := by
        split
        · omega
        · split <;> omega
      rw [closeFrom_char ht hs hn, ← hsize, ih hnext hcount, closeLength, Nat.add_comm 1, List.take_succ_cons,
        size_cons, hsize, Nat.add_assoc]

lemma closeFrom_region (ht : text = before ++ rest) (hs : size text ≤ Offset.max) (ho : opens rest = true) :
    size before + 2 ≤ size text ∧
      closeFrom (encode text) (size before + 2) 1 = .ok (size before + size (region rest)) := by
  obtain ⟨inner, rfl⟩ := opens_iff.mp ho
  have hopener : text = before ++ ['$', '{'] ++ inner := by rw [ht, List.append_assoc]; rfl
  have htwo : size (before ++ ['$', '{']) = size before + 2 := size_append before ['$', '{']
  have hregion : region ('$' :: '{' :: inner) = ['$', '{'] ++ inner.take (closeLength 1 inner) := by
    rw [region, Nat.add_comm]
    rfl
  refine ⟨?_, ?_⟩
  · rw [hopener, size_append, htwo]
    exact Nat.le_add_right _ _
  · rw [← htwo, closeFrom_eq hopener hs (by omega), hregion, htwo, size_append, Nat.add_assoc]
    rfl

end Braces

namespace Fragment

open Numeral

variable {interpolations quoted : Bool} {text before run rest : List Char} {c : Char} {s : Sweep}

lemma raw_eq {between after : List Char} (ht : text = before ++ between ++ after) (hs : size text ≤ Offset.max) :
    raw text (size before) (size before + size between) =
      .ok ⟨⟨size before, size before + size between⟩, String.ofList between⟩ := by
  have hsize : size text = size before + size between + size after := by rw [ht, size_append, size_append]
  rw [raw, ht, slice?_append, Trap.require_some, ok_bind, spanOf, Offset.ofPosition_eq (by omega),
    Offset.ofPosition_eq (by omega)]
  rfl

lemma byte_before {front : List Char} (ht : text = front ++ rest) (hf : front ≠ []) :
    ∃ b, (encode text)[size front - 1]? = some b ∧ (b = 0x24 ↔ front.getLast? = some '$') := by
  obtain ⟨init, c, rfl⟩ : ∃ init c, front = init ++ [c] :=
    ⟨front.dropLast, front.getLast hf, (List.dropLast_append_getLast hf).symm⟩
  rw [List.append_assoc] at ht
  obtain ⟨b, hb, hd⟩ := byte_of_char ht (Nat.sub_lt c.utf8Size_pos Nat.one_pos)
  refine ⟨b, ?_, ?_⟩
  · have hc := c.utf8Size_pos
    rw [← hb, size_append]
    congr 1
    change size init + c.utf8Size - 1 = _
    omega
  · rw [List.getLast?_concat, Option.some_inj]
    exact hd '$' (by decide)

lemma startsIsland_of_ne {bs : List UInt8} {pos : Nat} {b : UInt8} (hpos : pos + 1 ≤ Offset.max) (hb : b ≠ 0x24) :
    startsIsland interpolations bs pos b = .ok false := by
  rw [startsIsland, Offset.addPositions_eq_ok hpos, Trap.lift_ok, ok_bind, beq_false_of_ne hb, Bool.and_false,
    Bool.false_and]
  rfl

lemma startsIsland_eq {front : List Char} (ht : text = front ++ c :: rest) (hs : size text ≤ Offset.max) {b : UInt8}
    (hb : b = 0x24 ↔ c = '$') :
    startsIsland interpolations (encode text) (size front) b =
      .ok (interpolations && Braces.opens (c :: rest) && front.getLast? != some '$') := by
  have hsize : size text = size front + (c.utf8Size + size rest) := by rw [ht, size_append, size_cons]
  have hc := c.utf8Size_pos
  have htest : (interpolations && b == 0x24 && (encode text)[size front + 1]? == some 0x7B) =
      (interpolations && Braces.opens (c :: rest)) := by
    rw [← opens_at ht, Bool.and_assoc]
    congr 2
    rw [Bool.eq_iff_iff, beq_iff_eq, hb, decide_eq_true_iff]
  rw [startsIsland, Offset.addPositions_eq_ok (by omega), Trap.lift_ok, ok_bind, htest]
  cases interpolations && Braces.opens (c :: rest) with
  | false => rfl
  | true =>
    rw [if_pos rfl, Bool.true_and]
    by_cases hf : front = []
    · subst hf
      rfl
    · obtain ⟨last, hlast, hd⟩ := byte_before ht hf
      have hpos : size front ≠ 0 := mt eq_nil_of_size_eq_zero hf
      rw [if_neg hpos, Offset.sub_eq_ok (Nat.pos_of_ne_zero hpos), Trap.lift_ok, ok_bind, hlast, Trap.require_some,
        ok_bind]
      have hbne : (last != 0x24) = (front.getLast? != some '$') := by
        rw [Bool.eq_iff_iff, bne_iff_ne, bne_iff_ne, ne_eq, hd]
      rw [hbne]
      rfl

lemma digitsEnd_eq {p : UInt8 → Bool} {q : Char → Bool} (hq : Byte.Encodes (fun b => p b) (fun c => q c))
    {front cs : List Char} (hs : size (front ++ cs) ≤ Offset.max) (most : Nat) :
    digitsEnd p (size front) most (encode cs) =
      .ok (size front + size (cs.take ((cs.take most).takeWhile q).length)) := by
  have hprefix : (cs.take most).takeWhile q <+: cs := (List.takeWhile_prefix _).trans (List.take_prefix _ _)
  have hle : size ((cs.take most).takeWhile q) ≤ size cs := by
    obtain ⟨back, hback⟩ := hprefix
    conv_rhs => rw [← hback, size_append]
    exact Nat.le_add_right _ _
  have hrun := List.prefix_iff_eq_take.mp hprefix
  rw [size_append] at hs
  rw [digitsEnd, hq.takeWhile_take, length_encode, ← hrun, Offset.addPositions_eq_ok (by omega)]

lemma hexEnd_eq {front cs : List Char} (ht : text = front ++ cs) (hs : size text ≤ Offset.max) (most : Nat) :
    hexEnd (encode text) (size front) most = .ok (size front + size (cs.take (escapeLength.hexRun most cs))) := by
  subst ht
  rw [hexEnd, bytesFrom?_append, Trap.require_some, ok_bind, digitsEnd_eq Byte.encodes_hexDigit hs]
  rfl

lemma escapeEnd_eq {cs : List Char} (ht : text = before ++ '\\' :: c :: cs) (hs : size text ≤ Offset.max) :
    escapeEnd (encode text) (size before) c =
      .ok (size before + size ('\\' :: (c :: cs).take (escapeLength (c :: cs)))) := by
  have hletter : text = before ++ ['\\'] ++ c :: cs := ht.trans (List.append_cons _ _ _)
  have hafter : text = before ++ ['\\', c] ++ cs := by rw [ht, List.append_assoc]; rfl
  have hone : size before + 1 = size (before ++ ['\\']) := (size_append before ['\\']).symm
  have hsize : size text = size before + 1 + (c.utf8Size + size cs) := by
    rw [hletter, size_append, ← hone, size_cons]
  have hc := c.utf8Size_pos
  have hhex (hw : c.utf8Size = 1) (most : Nat) :
      hexEnd (encode text) (size before + 2) most =
        .ok (size before + size ('\\' :: (c :: cs).take (1 + escapeLength.hexRun most cs))) := by
    have htwo : size before + 2 = size (before ++ ['\\', c]) := by
      rw [size_append, size_cons, size_cons, hw]
      rfl
    rw [htwo, hexEnd_eq hafter hs, ← htwo, Nat.add_comm 1, List.take_succ_cons, size_cons, size_cons, hw]
    congr 1
    change _ = size before + (1 + (1 + _))
    omega
  by_cases ho : isOctalDigit c = true
  · have hnot : c ≠ 'u' ∧ c ≠ 'U' ∧ c ≠ 'X' := by
      obtain ⟨v, hv, hd⟩ := isOctalDigit_iff.mp ho
      exact of_isDigit (P := fun c _ => c ≠ 'u' ∧ c ≠ 'U' ∧ c ≠ 'X') (by decide) hv hd
    have hbytes : bytesFrom? (encode text) (size before + 1) = some (encode (c :: cs)) := by
      rw [hletter, hone, bytesFrom?_append]
    rw [escapeEnd, if_neg hnot.1, if_neg hnot.2.1, if_neg hnot.2.2, if_pos ho,
      Offset.addPositions_eq_ok (by omega), Trap.lift_ok, ok_bind, hbytes, Trap.require_some, ok_bind, hone,
      digitsEnd_eq Byte.encodes_isOctalDigit (hletter ▸ hs), escapeLength, if_pos ho, ← hone, Nat.add_assoc]
    rfl
  · rw [escapeLength, if_neg ho, escapeEnd, if_neg ho]
    simp only [Offset.addPositions_eq_ok (show size before + 2 ≤ Offset.max by omega), Trap.lift_ok, ok_bind]
    by_cases hu : c = 'u'
    · rw [if_pos hu, if_pos hu, hhex (hu ▸ rfl)]
    by_cases hU : c = 'U'
    · rw [if_neg hu, if_neg hu, if_pos hU, if_pos hU, hhex (hU ▸ rfl)]
    by_cases hX : c = 'X'
    · rw [if_neg hu, if_neg hu, if_neg hU, if_neg hU, if_pos hX, if_pos hX, hhex (hX ▸ rfl)]
    · rw [if_neg hu, if_neg hu, if_neg hU, if_neg hU, if_neg hX, if_neg hX,
        Offset.addPositions_eq_ok (by omega), Trap.lift_ok, ok_bind, Offset.addPositions_eq_ok (by omega),
        List.take_succ_cons, List.take_zero, Nat.add_assoc]
      rfl

lemma escapeFrom_eq {cs : List Char} (ht : text = before ++ '\\' :: cs) (hs : size text ≤ Offset.max) :
    escapeFrom text (size before) =
      .ok (if cs = [] then none
        else some ⟨⟨size before, size before + size (escape cs).source⟩, String.ofList (escape cs).shown⟩) := by
  have hletter : text = before ++ ['\\'] ++ cs := ht.trans (List.append_cons _ _ _)
  have hone : size before + 1 = size (before ++ ['\\']) := (size_append before ['\\']).symm
  have hsize : size text = size before + 1 + size cs := by rw [hletter, size_append, ← hone]
  have hcut : charsFrom? text (size before + 1) = some cs := by rw [hletter, hone, charsFrom?_append]
  rw [escapeFrom, Offset.addPositions_eq_ok (by omega), Trap.lift_ok, ok_bind, hcut, Trap.require_some, ok_bind]
  cases cs with
  | nil => rfl
  | cons c cs =>
    rw [if_neg (List.cons_ne_nil _ _), escape_source]
    cases hm : letter? c with
    | some meaning =>
      have hc := letter?_eq_some_iff.mp hm
      have hw : ∀ e ∈ letters, e.1.utf8Size = 1 := by decide
      have htwo : size ('\\' :: (c :: cs).take 1) = 2 := by
        rw [List.take_succ_cons, List.take_zero, size_cons, size_cons, hw _ hc]
        rfl
      rw [size_cons, hw _ hc] at hsize
      simp only [List.head?_cons, hm, Offset.addPositions_eq_ok (show size before + 2 ≤ Offset.max by omega),
        Trap.lift_ok, ok_bind, spanOf, Offset.ofPosition_eq (show size before ≤ Offset.max by omega),
        Offset.ofPosition_eq (show size before + 2 ≤ Offset.max by omega), escape, escapeLength_letter hc,
        Option.bind_some, htwo]
      rfl
    | none =>
      obtain ⟨after, hafter⟩ := List.take_prefix (escapeLength (c :: cs)) (c :: cs)
      have hsource : text = before ++ ('\\' :: (c :: cs).take (escapeLength (c :: cs))) ++ after := by
        rw [ht, List.append_assoc, List.cons_append, hafter]
      simp only [List.head?_cons, hm, escapeEnd_eq ht hs, ok_bind, raw_eq hsource hs, escape, Option.bind_some]
      rfl

namespace Sweep

/-- The sweep has read some text, and then a run of plain text that is not taken yet. -/
structure Fits (text before run rest : List Char) (s : Sweep) : Prop where
  source : text = before ++ run ++ rest
  small : size text ≤ Offset.max
  plain : s.plain = size before
  pos : s.pos = size (before ++ run)

def ofRun (run : List Char) : List Segment := if run = [] then [] else [.plain run]

def take (before run : List Char) (seg : Segment) (s : Sweep) : Sweep :=
  ⟨s.pos + size seg.source, s.pos + size seg.source, s.fragments ++ place (size before) (ofRun run ++ [seg])⟩

lemma flatMap_source_ofRun (run : List Char) : (ofRun run).flatMap Segment.source = run := by
  rw [ofRun]
  split
  · rename_i h
    rw [h, List.flatMap_nil]
  · rw [List.flatMap_singleton, Segment.source]

lemma place_concat (before run : List Char) (seg : Segment) :
    place (size before) (ofRun run ++ [seg]) = place (size before) (ofRun run) ++
      [⟨⟨size (before ++ run), size (before ++ run) + size seg.source⟩, String.ofList seg.shown⟩] := by
  rw [place_append, flatMap_source_ofRun, ← size_append]
  rfl

namespace Fits

lemma size_eq (h : Fits text before run rest s) : size text = s.pos + size rest := by
  rw [h.pos, h.source, size_append]

lemma takePlain_eq (h : Fits text before run rest s) :
    s.takePlain text = .ok (s.fragments ++ place (size before) (ofRun run)) := by
  rw [takePlain, h.plain, h.pos, size_append, ofRun]
  by_cases hr : run = []
  · subst hr
    rw [size_nil, Nat.add_zero, if_pos rfl, if_pos rfl, place, List.append_nil]
    rfl
  · have hne : size run ≠ 0 := mt eq_nil_of_size_eq_zero hr
    rw [if_neg (by omega), raw_eq h.source h.small, if_neg hr]
    rfl

lemma turn_byte {b : UInt8} (hb : (encode text)[s.pos]? = some b) (hs : size text ≤ Offset.max)
    (hi : startsIsland interpolations (encode text) s.pos b = .ok false) (hback : b ≠ 0x5C) :
    turn interpolations text s = .ok (.inr { s with pos := s.pos + 1 }) := by
  have hlt := (List.getElem?_eq_some_iff.mp hb).1
  rw [length_encode] at hlt
  simp only [turn, length_encode, if_pos hlt, hb, Trap.require_some, ok_bind, hi, if_neg hback, Bool.false_eq_true,
    if_false, Offset.addPositions_eq_ok (show s.pos + 1 ≤ Offset.max by omega), Trap.lift_ok]
  rfl

lemma exists_byte (interpolations : Bool) (h : Fits text before run (c :: rest) s) :
    ∃ b, (encode text)[s.pos]? = some b ∧ (b = 0x5C ↔ c = '\\') ∧
      startsIsland interpolations (encode text) s.pos b =
        .ok (interpolations && Braces.opens (c :: rest) && (before ++ run).getLast? != some '$') := by
  obtain ⟨b, hb, hd⟩ := byte_of_char h.source c.utf8Size_pos
  rw [Nat.add_zero, ← h.pos] at hb
  refine ⟨b, hb, hd '\\' (by decide), ?_⟩
  rw [h.pos]
  exact startsIsland_eq h.source h.small (hd '$' (by decide))

lemma toEnd_char (h : Fits text before run (c :: rest) s)
    (hc : special? interpolations (before ++ run).getLast? c rest = none) :
    s.toEnd interpolations text = ({ s with pos := s.pos + c.utf8Size } : Sweep).toEnd interpolations text := by
  obtain ⟨hback, hisland⟩ := special?_eq_none_iff.mp hc
  have hsize := h.size_eq
  have hsmall := h.small
  rw [size_cons] at hsize
  have hturn {i : Nat} (hi : i < c.utf8Size) : turn interpolations text { s with pos := s.pos + i } =
      .ok (.inr { s with pos := s.pos + (i + 1) }) := by
    by_cases hd : c = '$'
    · subst hd
      obtain rfl : i = 0 := Nat.lt_one_iff.mp hi
      obtain ⟨b, hb, hb', htest⟩ := h.exists_byte interpolations
      have hno : (interpolations && Braces.opens ('$' :: rest) && (before ++ run).getLast? != some '$') = false := by
        rw [Bool.eq_false_iff, ne_eq, Bool.and_eq_true, Bool.and_eq_true, bne_iff_ne, and_assoc]
        exact hisland
      exact turn_byte hb hsmall (hno ▸ htest) (mt hb'.mp hback)
    · obtain ⟨b, hb, hclass⟩ := byte_of_char h.source hi
      rw [← h.pos] at hb
      apply turn_byte hb hsmall _ (mt (hclass '\\' (by decide)).mp hback)
      exact startsIsland_of_ne (by simp only; omega) (mt (hclass '$' (by decide)).mp hd)
  apply Trap.loop_steps (fun i => ({ s with pos := s.pos + i } : Sweep)) c.utf8Size
  intro i hi
  refine ⟨hturn hi, ?_⟩
  change size text - (s.pos + (i + 1)) < size text - (s.pos + i)
  omega

lemma turn_island (h : Fits text before run (c :: rest) s)
    (hi : (interpolations && Braces.opens (c :: rest) && (before ++ run).getLast? != some '$') = true) :
    turn interpolations text s = .ok (.inr (s.take before run (.island (Braces.region (c :: rest))))) := by
  obtain ⟨b, hb, -, htest⟩ := h.exists_byte interpolations
  have hlt := (List.getElem?_eq_some_iff.mp hb).1
  have hopens := (Bool.and_eq_true_iff.mp (Bool.and_eq_true_iff.mp hi).1).2
  obtain ⟨after, hregion, -⟩ := Braces.exists_isRegion hopens
  have hsource : text = before ++ run ++ Braces.region (c :: rest) ++ after := by
    rw [h.source, List.append_assoc _ _ after, hregion]
  have hraw := raw_eq hsource h.small
  obtain ⟨htwo, hclose⟩ := Braces.closeFrom_region h.source h.small hopens
  rw [← h.pos] at hraw htwo hclose
  rw [take, place_concat, ← List.append_assoc, ← h.pos]
  rw [hi] at htest
  simp only [turn, if_pos hlt, hb, Trap.require_some, ok_bind, htest, if_true, h.takePlain_eq, hclose, hraw,
    Offset.addPositions_eq_ok (htwo.trans h.small), Trap.lift_ok]
  rfl

lemma turn_escape (h : Fits text before run ('\\' :: rest) s)
    (hi : (interpolations && Braces.opens ('\\' :: rest) && (before ++ run).getLast? != some '$') = false) :
    turn interpolations text s = .ok (.inr (s.take before run (escape rest))) ∨
      s.pos + size (escape rest).source = size text ∧
        turn interpolations text s = .ok (.inl { s.take before run (escape rest) with pos := s.pos }) := by
  obtain ⟨b, hb, hback, htest⟩ := h.exists_byte interpolations
  have hlt := (List.getElem?_eq_some_iff.mp hb).1
  have hsize := h.size_eq
  have hsmall := h.small
  have hescape := escapeFrom_eq h.source hsmall
  rw [← h.pos] at hescape
  rw [take, place_concat, ← List.append_assoc, ← h.pos]
  rw [hi] at htest
  simp only [turn, if_pos hlt, hb, Trap.require_some, ok_bind, htest, Bool.false_eq_true, if_false,
    if_pos (hback.mpr rfl), h.takePlain_eq, hescape]
  cases rest with
  | nil =>
    right
    change _ = s.pos + 1 at hsize
    have hstop : s.pos + 1 ≤ Offset.max := hsize ▸ hsmall
    refine ⟨hsize.symm, ?_⟩
    simp only [if_true, Offset.addPositions_eq_ok hstop, Trap.lift_ok, ok_bind, spanOf,
      Offset.ofPosition_eq (Nat.le_of_succ_le hstop), Offset.ofPosition_eq hstop, length_encode, hsize]
    rfl
  | cons d rest =>
    left
    simp only [if_neg (List.cons_ne_nil d rest)]
    rfl

lemma turn_special {seg : Segment} (h : Fits text before run (c :: rest) s)
    (hc : special? interpolations (before ++ run).getLast? c rest = some seg) :
    turn interpolations text s = .ok (.inr (s.take before run seg)) ∨
      s.pos + size seg.source = size text ∧
        turn interpolations text s = .ok (.inl { s.take before run seg with pos := s.pos }) := by
  by_cases hi : (interpolations && Braces.opens (c :: rest) && (before ++ run).getLast? != some '$') = true
  · rw [special?, if_pos hi] at hc
    obtain rfl := Option.some.inj hc
    exact Or.inl (h.turn_island hi)
  · obtain ⟨rfl, rfl⟩ : c = '\\' ∧ escape rest = seg := by
      rw [special?, if_neg hi] at hc
      split at hc
      · exact ⟨‹_›, Option.some.inj hc⟩
      · cases hc
    exact h.turn_escape (Bool.eq_false_iff.mpr hi)

lemma take {seg : Segment} {after : List Char} (h : Fits text before run rest s) (hr : seg.source ++ after = rest) :
    Fits text (before ++ run ++ seg.source) [] after (s.take before run seg) where
  source := by rw [List.append_nil, List.append_assoc _ seg.source, hr, h.source]
  small := h.small
  plain := by rw [Sweep.take, h.pos, ← size_append]
  pos := by rw [Sweep.take, h.pos, List.append_nil, ← size_append]

lemma char (h : Fits text before run (c :: rest) s) :
    Fits text before (run ++ [c]) rest { s with pos := s.pos + c.utf8Size } where
  source := by rw [h.source, List.append_cons _ c, ← List.append_assoc]
  small := h.small
  plain := h.plain
  pos := by
    rw [← List.append_assoc, size_append, ← h.pos]
    rfl

lemma toEnd_nil (h : Fits text before run [] s) : s.toEnd interpolations text = .ok s := by
  have hend : ¬ s.pos < (encode text).length := by
    rw [length_encode, h.size_eq]
    exact Nat.lt_irrefl _
  apply Trap.loop_of_inl
  simp only [turn, if_neg hend]
  rfl

end Fits

lemma toEnd_special {seg : Segment} (h : Fits text before run (c :: rest) s)
    (hc : special? interpolations (before ++ run).getLast? c rest = some seg) :
    (s.toEnd interpolations text >>= finish quoted text) =
      ((s.take before run seg).toEnd interpolations text >>= finish quoted text) := by
  obtain ⟨after, hafter, hs, -⟩ := special?_eq_some hc
  have hnext := h.take hafter
  have hsize := h.size_eq
  rw [← hafter, size_append] at hsize
  rcases h.turn_special hc with ht | ⟨hend, ht⟩
  · have hpos : size seg.source ≠ 0 := mt eq_nil_of_size_eq_zero hs.source_ne_nil
    have hmove : s.toEnd interpolations text = (s.take before run seg).toEnd interpolations text := by
      apply Trap.loop_of_inr ht
      change size text - (s.pos + size seg.source) < size text - s.pos
      omega
    rw [hmove]
  · have hstop : s.toEnd interpolations text = .ok { s.take before run seg with pos := s.pos } :=
      Trap.loop_of_inl ht
    obtain rfl : after = [] := eq_nil_of_size_eq_zero (by omega)
    rw [hstop, hnext.toEnd_nil]
    rfl

def trim : Option Char → List Segment → List Segment
  | none, segs => segs
  | some quote, segs => dropQuote quote segs

lemma foldr_consPlain_nil (run : List Char) : run.foldr Segment.consPlain [] = ofRun run := by
  induction run with
  | nil => rfl
  | cons c run ih =>
    rw [List.foldr_cons, ih, ofRun, ofRun, if_neg (List.cons_ne_nil _ _)]
    split
    · rename_i h
      rw [h]
      rfl
    · rfl

lemma foldr_consPlain_special {seg : Segment} (h : ¬ seg.IsPlain) (run : List Char) (segs : List Segment) :
    run.foldr Segment.consPlain (seg :: segs) = ofRun run ++ seg :: segs := by
  induction run with
  | nil => rfl
  | cons c run ih =>
    rw [List.foldr_cons, ih, ofRun, ofRun, if_neg (List.cons_ne_nil _ _)]
    split
    · rename_i hr
      rw [hr]
      cases seg with
      | plain source => exact absurd trivial h
      | escape source shown | island source => rfl
    · rfl

lemma trim_special {seg : Segment} (h : ¬ seg.IsPlain) (quote? : Option Char) (run : List Char) (segs : List Segment) :
    trim quote? (ofRun run ++ seg :: segs) = ofRun run ++ [seg] ++ trim quote? segs := by
  cases quote? with
  | none => simp [trim]
  | some quote =>
    have hseg : dropQuote quote (seg :: segs) = seg :: dropQuote quote segs := by
      cases seg with
      | plain source => exact absurd trivial h
      | escape source shown | island source => rfl
    rw [trim, ofRun]
    split
    · exact hseg
    · simp only [List.singleton_append, dropQuote, hseg]
      rfl

lemma dropQuote_ofRun_nil (quote : Char) : dropQuote quote (ofRun []) = [] := rfl

lemma dropQuote_ofRun_concat (quote : Char) (run : List Char) :
    dropQuote quote (ofRun (run ++ [quote])) = ofRun run := by
  simp [ofRun, dropQuote]

lemma dropQuote_ofRun {quote : Char} (h : run.getLast? ≠ some quote) : dropQuote quote (ofRun run) = ofRun run := by
  rw [ofRun]
  split
  · rfl
  · exact if_neg h

def quote? (quoted : Bool) (text : List Char) : Option Char := if quoted then text.head? else none

lemma contentStop_closed {init : List Char} {last : Char} (h : quote? quoted text = some last)
    (ht : text = init ++ [last]) : contentStop quoted text = .ok (size init) := by
  have hsize : size text = size init + last.utf8Size := by rw [ht, size_append]; rfl
  have hlast : text.getLast? = some last := by rw [ht, List.getLast?_concat]
  rw [quote?] at h
  cases quoted with
  | false => cases h
  | true =>
    have hhead : text.head? = some last := h
    have hsub : Offset.sub (size text) last.utf8Size = .ok (size init) := by
      rw [Offset.sub_eq_ok (by omega), hsize, Nat.add_sub_cancel]
    simp only [contentStop, hlast, hhead, beq_self_eq_true, Bool.and_self, if_true, hsub]
    rfl

lemma contentStop_open (h : ∀ last, quote? quoted text = some last → text.getLast? ≠ some last) :
    contentStop quoted text = .ok (size text) := by
  rw [contentStop]
  cases hl : text.getLast? with
  | none => rfl
  | some last =>
    have hno : (quoted && text.head? == some last) = false := by
      cases quoted with
      | false => rfl
      | true =>
        rw [Bool.true_and, beq_eq_false_iff_ne]
        intro hh
        exact h last hh hl
    simp only [hno]
    rfl

lemma finish_of_stop {tail : List Char} (h : Fits text before (run ++ tail) [] s)
    (hstop : contentStop quoted text = .ok (size (before ++ run))) :
    s.finish quoted text = .ok (s.fragments ++ place (size before) (ofRun run)) := by
  rw [finish, hstop, ok_bind, h.plain, size_append, ofRun]
  by_cases hr : run = []
  · subst hr
    rw [size_nil, Nat.add_zero, if_neg (Nat.lt_irrefl _), if_pos rfl, place, List.append_nil]
    rfl
  · have hne : size run ≠ 0 := mt eq_nil_of_size_eq_zero hr
    have hsource : text = before ++ run ++ tail := by
      rw [h.source, List.append_nil, List.append_assoc]
    rw [if_pos (by omega), raw_eq hsource h.small, if_neg hr]
    rfl

lemma finish_eq (h : Fits text before run [] s) :
    s.finish quoted text = .ok (s.fragments ++ place (size before) (trim (quote? quoted text) (ofRun run))) := by
  have hsource : text = before ++ run := h.source.trans (List.append_nil _)
  by_cases hclosed : ∃ last, quote? quoted text = some last ∧ text.getLast? = some last
  · obtain ⟨last, hquote, hlast⟩ := hclosed
    obtain ⟨init, ht⟩ := List.getLast?_eq_some_iff.mp hlast
    have hstop := contentStop_closed hquote ht
    rw [hquote, trim]
    rcases List.eq_nil_or_concat run with rfl | ⟨run, d, rfl⟩
    · have hshort : ¬ size before < size init := by
        rw [List.append_nil] at hsource
        rw [← hsource, ht, size_append]
        omega
      rw [finish, hstop, ok_bind, h.plain, if_neg hshort, dropQuote_ofRun_nil, place, List.append_nil]
      rfl
    · rw [List.concat_eq_append] at h hsource ⊢
      rw [← List.append_assoc, ht] at hsource
      obtain ⟨rfl, hd⟩ := List.append_inj' hsource rfl
      obtain rfl := List.singleton_inj.mp hd
      rw [finish_of_stop h hstop, dropQuote_ofRun_concat]
  · have hopen : ∀ last, quote? quoted text = some last → text.getLast? ≠ some last :=
      fun last hq hl => hclosed ⟨last, hq, hl⟩
    have hrun : trim (quote? quoted text) (ofRun run) = ofRun run := by
      cases hq : quote? quoted text with
      | none => rfl
      | some quote =>
        apply dropQuote_ofRun
        intro hl
        apply hopen quote hq
        rw [hsource, List.getLast?_append, hl]
        rfl
    have hall : Fits text before (run ++ []) [] s := by rwa [List.append_nil]
    rw [hrun]
    exact finish_of_stop hall (hsource ▸ contentStop_open hopen)

lemma Fits.sweep_eq (h : Fits text before run rest s) :
    (s.toEnd interpolations text >>= finish quoted text) =
      .ok (s.fragments ++ place (size before) (trim (quote? quoted text)
        (run.foldr Segment.consPlain (segments interpolations (before ++ run).getLast? rest)))) := by
  generalize hlast : (before ++ run).getLast? = last
  fun_induction segments interpolations last rest generalizing before run s with
  | case1 => rw [h.toEnd_nil, ok_bind, finish_eq h, foldr_consPlain_nil]
  | case2 last c cs seg hc ih =>
    subst hlast
    obtain ⟨after, hafter, hs, hplain⟩ := special?_eq_some hc
    have hdrop : (c :: cs).drop seg.source.length = after := by rw [← hafter, List.drop_left]
    have hnext := h.take hafter
    rw [hdrop] at ih ⊢
    have hsize : size (before ++ run ++ seg.source) =
        size before + size ((ofRun run ++ [seg]).flatMap Segment.source) := by
      rw [List.flatMap_append, flatMap_source_ofRun, List.flatMap_singleton, List.append_assoc, size_append]
    rw [toEnd_special h hc, ih hnext, foldr_consPlain_special hplain, trim_special hplain,
      place_append (size before) (ofRun run ++ [seg]), ← hsize, ← List.append_assoc]
    · rfl
    · rw [List.append_nil]
      exact List.getLast?_append_of_ne_nil _ hs.source_ne_nil
  | case3 last c cs hc ih =>
    subst hlast
    rw [h.toEnd_char hc, ih h.char, List.foldr_append]
    · rfl
    · rw [← List.append_assoc, List.getLast?_concat]

end Sweep

lemma sweep_eq (interpolations quoted : Bool) {text : String} (h : size text.toList ≤ Offset.max) :
    sweep interpolations quoted text = .ok (ofText interpolations quoted text) := by
  cases ht : text.toList with
  | nil => cases quoted <;> simp [sweep, ofText, ofQuoted, ofBare, segments, place, ht] <;> rfl
  | cons first cs =>
    rw [ht] at h
    rw [sweep]
    simp only [ht]
    cases quoted with
    | true =>
      have hfits : Sweep.Fits (first :: cs) [first] [] cs ⟨first.utf8Size, first.utf8Size, []⟩ := ⟨rfl, h, rfl, rfl⟩
      rw [ofText_quoted ht]
      exact hfits.sweep_eq
    | false =>
      have hfits : Sweep.Fits (first :: cs) [] [] (first :: cs) ⟨0, 0, []⟩ := ⟨rfl, h, rfl, rfl⟩
      rw [ofText_bare, ht]
      exact hfits.sweep_eq

end Fragment

end HclLiteral
