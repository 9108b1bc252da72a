import HclLiteral.Proofs.Tiling

namespace HclLiteral

namespace Text

def boundariesFrom (start : Nat) : List Char → List Nat
  | [] => [start]
  | c :: cs => start :: boundariesFrom (start + c.utf8Size) cs

variable {cs before after : List Char} {start n : Nat}

lemma IsBoundary.le_size (h : IsBoundary cs n) : n ≤ size cs := by
  obtain ⟨before, after, rfl, rfl⟩ := isBoundary_iff.mp h
  simp

lemma IsBoundary.beyond {c : Char} (h : IsBoundary (before ++ c :: after) n) (hn : size before < n) :
    size before + c.utf8Size ≤ n := by
  obtain ⟨front, back, he, rfl⟩ := isBoundary_iff.mp h
  rcases List.append_eq_append_iff.mp he with ⟨between, rfl, hb⟩ | ⟨between, rfl, -⟩
  · cases between with
    | nil => simp at hn
    | cons d between =>
      obtain rfl : c = d := (List.cons.inj hb).1
      simp only [size_append, size_cons]
      omega
  · rw [size_append] at hn
    omega

lemma mem_boundariesFrom :
    n ∈ boundariesFrom (size before) after ↔ size before ≤ n ∧ IsBoundary (before ++ after) n := by
  induction after generalizing before with
  | nil =>
    rw [boundariesFrom, List.mem_singleton, List.append_nil]
    constructor
    · rintro rfl
      exact ⟨le_rfl, isBoundary_iff.mpr ⟨before, [], by simp, rfl⟩⟩
    · rintro ⟨hle, hb⟩
      exact le_antisymm hb.le_size hle
  | cons c after ih =>
    have hstep : size before + c.utf8Size = size (before ++ [c]) := by simp
    have htext : before ++ c :: after = before ++ [c] ++ after := by simp
    rw [boundariesFrom, List.mem_cons, hstep, ih, ← htext, ← hstep]
    constructor
    · rintro (rfl | ⟨hle, hb⟩)
      · exact ⟨le_rfl, isBoundary_iff.mpr ⟨before, _, rfl, rfl⟩⟩
      · exact ⟨(Nat.le_add_right _ _).trans hle, hb⟩
    · rintro ⟨hle, hb⟩
      rcases hle.eq_or_lt with he | hlt
      · exact Or.inl he.symm
      · exact Or.inr ⟨hb.beyond hlt, hb⟩

lemma getLast?_boundariesFrom (start : Nat) (cs : List Char) :
    (boundariesFrom start cs).getLast? = some (start + size cs) := by
  induction cs generalizing start with
  | nil => rfl
  | cons c cs ih => simp [boundariesFrom, List.getLast?_cons, ih, Nat.add_assoc]

lemma le_of_mem_boundariesFrom (h : n ∈ boundariesFrom start cs) : start ≤ n := by
  induction cs generalizing start with
  | nil => exact (List.mem_singleton.mp h).ge
  | cons c cs ih =>
    rcases List.mem_cons.mp h with rfl | h
    · exact le_rfl
    · exact (Nat.le_add_right _ _).trans (ih h)

lemma pairwise_boundariesFrom (start : Nat) (cs : List Char) :
    (boundariesFrom start cs).Pairwise (· < ·) := by
  induction cs generalizing start with
  | nil => exact List.pairwise_singleton _ _
  | cons c cs ih =>
    apply List.Pairwise.cons _ (ih _)
    intro n hn
    exact (Nat.lt_add_of_pos_right c.utf8Size_pos).trans_le (le_of_mem_boundariesFrom hn)

/-- The bytes from an offset up to a boundary, and the boundaries from there on. -/
def stopsFrom (start bytes : Nat) (cs : List Char) : List Nat :=
  List.range' start bytes ++ boundariesFrom (start + bytes) cs

lemma head?_stopsFrom (start bytes : Nat) (cs : List Char) : (stopsFrom start bytes cs).head? = some start := by
  cases bytes with
  | zero => cases cs <;> rfl
  | succ bytes => rfl

lemma getLast?_stopsFrom (start bytes : Nat) (cs : List Char) :
    (stopsFrom start bytes cs).getLast? = some (start + bytes + size cs) := by
  rw [stopsFrom, List.getLast?_append, getLast?_boundariesFrom]
  rfl

lemma pairwise_stopsFrom (start bytes : Nat) (cs : List Char) : (stopsFrom start bytes cs).Pairwise (· < ·) := by
  apply List.pairwise_append.mpr ⟨List.pairwise_lt_range', pairwise_boundariesFrom _ _, ?_⟩
  intro m hm n hn
  exact (List.mem_range'_1.mp hm).2.trans_le (le_of_mem_boundariesFrom hn)

lemma exists_inside (hn : n ≤ size cs) (hb : ¬ IsBoundary cs n) :
    ∃ before c after, cs = before ++ c :: after ∧ size before < n ∧ n < size before + c.utf8Size := by
  induction cs generalizing n with
  | nil =>
    obtain rfl := Nat.le_zero.mp hn
    exact absurd ⟨_, rfl⟩ hb
  | cons c cs ih =>
    rcases Nat.eq_zero_or_pos n with rfl | hp
    · exact absurd (isBoundary_iff.mpr ⟨[], _, rfl, rfl⟩) hb
    rcases Nat.lt_or_ge n c.utf8Size with hlt | hge
    · exact ⟨[], c, cs, rfl, hp, by simpa using hlt⟩
    · rw [size_cons] at hn
      obtain ⟨before, d, after, rfl, hlo, hhi⟩ := ih (n := n - c.utf8Size) (by omega) (by
        intro hcut
        obtain ⟨front, back, rfl, hs⟩ := isBoundary_iff.mp hcut
        exact hb (isBoundary_iff.mpr ⟨c :: front, back, rfl, by rw [size_cons]; omega⟩))
      exact ⟨c :: before, d, after, rfl, by rw [size_cons]; omega, by rw [size_cons]; omega⟩

end Text

namespace Cursor

lemma lt_of_advanceChar {c next : Cursor} (h : c.advanceChar = .ok next) :
    c.pos < next.pos ∧ next.pos ≤ Offset.max := by
  unfold advanceChar advance Offset.add at h
  split at h
  · rename_i hle
    cases h
    have := Text.charWidth_pos c.current
    simp only
    omega
  · cases h

def charStops (c : Cursor) : Except Overflow (List Nat) :=
  if c.isAtEnd then .ok [c.pos]
  else
    match _h : c.advanceChar with
    | .ok next => (charStops next).map (c.pos :: ·)
    | .error e => .error e
termination_by Offset.max - c.pos
decreasing_by
  have := lt_of_advanceChar _h
  omega

variable {c : Cursor} {b : UInt8} {bs : List UInt8} {before after : List Char} {d : Char} {stops : List Nat}

lemma charStops_of_nil (hr : c.rest = []) : c.charStops = .ok [c.pos] := by
  rw [charStops, if_pos (isAtEnd_iff.mpr hr)]

lemma charStops_of_cons (h : c.Fits) (hr : c.rest = b :: bs)
    (hs : (c.forward (Text.charWidth b)).charStops = .ok stops) :
    c.charStops = .ok (c.pos :: stops) := by
  have ha := h.advanceChar hr
  rw [charStops, if_neg (not_isAtEnd_of_cons hr)]
  split
  · rename_i next hn
    cases ha.symm.trans hn
    rw [hs]
    rfl
  · rename_i e he
    cases ha.symm.trans he

lemma charStops_of_boundary (h : c.Fits) (before : List Char) (hs : c.source = Text.encode (before ++ after))
    (hp : c.pos = Text.size before) : c.charStops = .ok (Text.boundariesFrom c.pos after) := by
  have hr : c.rest = Text.encode after := by
    rw [rest, hs, hp]
    exact Pattern.drop_encode_append before after
  induction after generalizing c before with
  | nil => exact charStops_of_nil hr
  | cons d after ih =>
    cases he : Text.encode (d :: after) with
    | nil =>
      have hl := congrArg List.length he
      rw [Text.length_encode, Text.size_cons] at hl
      exact absurd hl (Nat.ne_of_gt (Nat.add_pos_left d.utf8Size_pos _))
    | cons b bs =>
      rw [he] at hr
      have hw : Text.charWidth b = d.utf8Size := Token.charWidth_head he
      have hle : Text.charWidth b ≤ c.rest.length := hr ▸ (hr ▸ h.isTail).charWidth_le
      apply charStops_of_cons h hr
      rw [hw] at hle ⊢
      apply ih (h.forward hle) (before ++ [d])
      · rw [source_forward, hs, List.append_assoc]
        rfl
      · rw [pos_forward, hp, Text.size_append]
        rfl
      · rw [rest_forward, hr, ← he, Text.encode_cons, ← String.length_utf8EncodeChar, List.drop_left]

lemma charStops_of_inside (k : Nat) (h : c.Fits) (hs : c.source = Text.encode (before ++ d :: after))
    (hp : Text.size before < c.pos) (hk : c.pos + k = Text.size before + d.utf8Size) :
    c.charStops = .ok (Text.stopsFrom c.pos k after) := by
  induction k generalizing c with
  | zero =>
    refine charStops_of_boundary h (before ++ [d]) ?_ ?_
    · rw [hs, List.append_assoc]
      rfl
    · rw [Text.size_append]
      exact hk
  | succ k ih =>
    obtain ⟨b, bs, hd, hb⟩ := Text.drop_inside (c := d) (n := c.pos - Text.size before) (by omega)
      (by omega) (Text.encode after)
    have hr : c.rest = b :: bs := by
      have hpos : c.pos = Text.size before + (c.pos - Text.size before) := by omega
      rw [rest, hs, hpos, ← List.drop_drop, Pattern.drop_encode_append]
      exact hd
    have hw : Text.charWidth b = 1 := Text.charWidth_of_lt hb.2
    have hnext := ih (h.forward (one_le_of_cons hr)) hs (Nat.lt_succ_of_lt hp) (by rw [pos_forward]; omega)
    rw [Text.stopsFrom, pos_forward, Nat.add_assoc, Nat.add_comm 1 k] at hnext
    apply charStops_of_cons h hr
    rw [hw]
    exact hnext

lemma exists_charStops (h : c.Fits) {cs : List Char} (hs : c.source = Text.encode cs) :
    ∃ before after k, cs = before ++ after ∧ c.pos + k = Text.size before ∧
      (∀ n ≥ c.pos, Text.IsBoundary cs n → c.pos + k ≤ n) ∧
      c.charStops = .ok (Text.stopsFrom c.pos k after) := by
  by_cases hb : Text.IsBoundary cs c.pos
  · obtain ⟨before, after, rfl, hp⟩ := Text.isBoundary_iff.mp hb
    exact ⟨before, after, 0, rfl, hp.symm, fun _ hn _ => hn, charStops_of_boundary h before hs hp.symm⟩
  · have hle : c.pos ≤ Text.size cs := by
      rw [← Text.length_encode, ← hs]
      exact h.inside
    obtain ⟨before, d, after, rfl, hlo, hhi⟩ := Text.exists_inside hle hb
    refine ⟨before ++ [d], after, Text.size before + d.utf8Size - c.pos, by simp, ?_, ?_, ?_⟩
    · rw [Text.size_append, Text.size_cons, Text.size_nil]
      omega
    · intro n hn hb'
      have := hb'.beyond (hlo.trans_le hn)
      omega
    · exact charStops_of_inside _ h hs hlo (by omega)

end Cursor

/-- From any offset on, moves over one character at a time never fail and come to the end of the text. They
stop at the boundaries from there on, and before that at each byte of a character that they start in. -/
theorem advanceChar_walks_boundaries (text : String) (start : Nat) (h : (Text.bytes text).length < 2 ^ 32) :
    let size := (Text.bytes text).length
    let first := min start size
    (Cursor.ofText text).advance first = .ok (.atOffset text start) ∧
    ∃ stops, (Cursor.atOffset text start).charStops = .ok stops ∧
      stops.head? = some first ∧ stops.getLast? = some size ∧
      stops.Pairwise (· < ·) ∧ (∀ n ∈ stops, n ≤ size) ∧
      (Text.IsBoundary text.toList first →
        ∀ n, n ∈ stops ↔ first ≤ n ∧ Text.IsBoundary text.toList n) ∧
      ∀ before c after, text.toList = before ++ c :: after →
        Text.size before < first → first < Text.size before + c.utf8Size →
        ∃ later, stops = List.range' first (Text.size before + c.utf8Size - first) ++ later ∧
          ∀ n, n ∈ later ↔ Text.size before + c.utf8Size ≤ n ∧ Text.IsBoundary text.toList n := by
  intro size first
  have hfits : (Cursor.atOffset text start).Fits := (Reader.valid_ofCursor h start).fits
  obtain ⟨front, back, k, ht, hk, hleast, hstops⟩ := Cursor.exists_charStops hfits rfl
  change first + k = Text.size front at hk
  change ∀ n ≥ first, _ → first + k ≤ n at hleast
  change _ = Except.ok (Text.stopsFrom first k back) at hstops
  have hsize : size = first + k + Text.size back := by
    rw [hk, ← Text.size_append, ← ht]
    exact Text.length_encode _
  have hstop : Text.IsBoundary text.toList (first + k) := by
    rw [hk, ht]
    exact Text.isBoundary_iff.mpr ⟨front, back, rfl, rfl⟩
  have hmem (n : Nat) : n ∈ Text.boundariesFrom (first + k) back ↔
      first + k ≤ n ∧ Text.IsBoundary text.toList n := by
    rw [hk, ht]
    exact Text.mem_boundariesFrom
  refine ⟨Cursor.advance_ofText h start, _, hstops, Text.head?_stopsFrom _ _ _, ?_,
    Text.pairwise_stopsFrom _ _ _, ?_, ?_, ?_⟩
  · rw [hsize]
    exact Text.getLast?_stopsFrom _ _ _
  · intro n hn
    rcases List.mem_append.mp hn with hn | hn
    · have := (List.mem_range'_1.mp hn).2
      omega
    · rw [hsize, hk, ← Text.size_append, ← ht]
      exact ((hmem n).mp hn).2.le_size
  · intro hb n
    obtain rfl : k = 0 := by
      have := hleast first le_rfl hb
      omega
    exact hmem n
  · intro before c after hc hlo hhi
    have hend : first + k = Text.size before + c.utf8Size := by
      apply le_antisymm
      · apply hleast _ hhi.le
        exact Text.isBoundary_iff.mpr ⟨before ++ [c], after, by simp [hc], by simp⟩
      · exact (hc ▸ hstop).beyond (hlo.trans_le (Nat.le_add_right _ _))
    refine ⟨Text.boundariesFrom (first + k) back, ?_, ?_⟩
    · rw [← hend, Nat.add_sub_cancel_left]
      rfl
    · rw [← hend]
      exact hmem

theorem advanceChar_walks_out_of_character :
    (Text.bytes "aé\x00😀").length < 2 ^ 32 ∧
      (Cursor.atOffset "aé\x00😀" 2).charStops = .ok [2, 3, 4, 8] ∧
      ∃ stops, (Cursor.atOffset "aé\x00😀" 2).charStops = .ok stops ∧ stops.getLast? = some 8 ∧
        ∃ later, stops = List.range' 2 1 ++ later ∧
          ∀ n, n ∈ later ↔ 3 ≤ n ∧ Text.IsBoundary "aé\x00😀".toList n := by
  have hl : (Text.bytes "aé\x00😀").length = 8 := by decide
  have hlt : (Text.bytes "aé\x00😀").length < 2 ^ 32 := by
    rw [hl]
    decide
  have hs : (Cursor.atOffset "aé\x00😀" 2).charStops = .ok [2, 3, 4, 8] := by decide +kernel
  obtain ⟨-, stops, hstops, -, hlast, -, -, -, hinside⟩ := advanceChar_walks_boundaries _ 2 hlt
  rw [hl] at hlast hinside
  exact ⟨hlt, hs, stops, hstops, hlast, hinside ['a'] 'é' ['\x00', '😀'] rfl (by decide) (by decide)⟩

end HclLiteral
