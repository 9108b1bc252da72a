import HclLiteral.Escape.Decode
import HclLiteral.Proofs.EscapeGrammar

namespace HclLiteral.Escape

namespace Piece

def IsWellFormed : Piece → Prop
  | malformed _ _ => False
  | verbatim _ | escape _ _ => True

lemma read_source_append (interpolations : Bool) (c : Char) (cs : List Char) :
    (read interpolations c cs).source ++
      (c :: cs).drop (read interpolations c cs).source.length = c :: cs := by
  rw [← List.prefix_iff_eq_append]
  unfold read
  repeat' split
  · exact List.take_prefix _ _
  · exact List.cons_prefix_cons.mpr ⟨rfl, List.take_prefix _ _⟩
  · exact List.cons_prefix_cons.mpr ⟨rfl, List.take_prefix _ _⟩
  · exact List.cons_prefix_cons.mpr ⟨rfl, List.nil_prefix⟩

lemma read_opener (cs : List Char) :
    read true '$' ('{' :: cs) = .verbatim (Braces.region ('$' :: '{' :: cs)) := rfl

lemma opens_cons_iff {c : Char} {cs : List Char} :
    Braces.opens (c :: cs) = true ↔ c = '$' ∧ cs.head? = some '{' := by
  cases cs <;> simp [Braces.opens]

lemma read_backslash (interpolations : Bool) (cs : List Char) :
    read interpolations '\\' cs =
      match Escape.read cs with
      | .ok reading => .escape ('\\' :: cs.take reading.length) reading.meaning
      | .error fault => .malformed ('\\' :: cs.take 1) fault := by
  have ho : ¬ (interpolations && Braces.opens ('\\' :: cs)) = true := by
    rw [Bool.and_eq_true, opens_cons_iff]
    rintro ⟨-, hd, -⟩
    cases hd
  unfold read
  exact (if_neg ho).trans (if_pos rfl)

end Piece

lemma IsUnit.read_eq {interpolations : Bool} {unit : Piece} {rest : List Char}
    (h : IsUnit interpolations unit rest) {c : Char} {cs : List Char}
    (hs : unit.source ++ rest = c :: cs) : Piece.read interpolations c cs = unit := by
  cases h with
  | char hc hi =>
    obtain ⟨rfl, rfl⟩ := List.cons.inj hs
    rw [Piece.read, if_neg, if_neg hc]
    rw [Bool.and_eq_true, Piece.opens_cons_iff]
    exact hi
  | interpolation hi hw hc =>
    subst hi
    rw [Piece.source, List.append_assoc] at hs
    obtain ⟨rfl, rfl⟩ := List.cons.inj hs
    exact congrArg Piece.verbatim (Braces.region_of_balanced rest hw hc)
  | openInterpolation hi hw =>
    subst hi
    rw [List.append_nil] at hs
    obtain ⟨rfl, rfl⟩ := List.cons.inj hs
    rw [Piece.read_opener, Braces.region_of_within hw]
  | escape he =>
    obtain ⟨rfl, rfl⟩ := List.cons.inj hs
    rw [Piece.read_backslash, List.append_eq, read_of_spelled he]
    simp

lemma isUnit_read {interpolations : Bool} {c : Char} {cs rest : List Char}
    (hs : (Piece.read interpolations c cs).source ++ rest = c :: cs)
    (hw : (Piece.read interpolations c cs).IsWellFormed) :
    IsUnit interpolations (Piece.read interpolations c cs) rest := by
  by_cases ho : (interpolations && Braces.opens (c :: cs)) = true
  · rw [Piece.read, if_pos ho] at hs ⊢
    rw [Bool.and_eq_true, Piece.opens_cons_iff] at ho
    obtain ⟨hi, rfl, hd⟩ := ho
    obtain ⟨inner, rfl⟩ : ∃ inner, cs = '{' :: inner := by
      cases cs with
      | nil => cases hd
      | cons d inner => exact ⟨inner, by rw [Option.some.inj hd]⟩
    -- either some brace balances the opener, or the region runs to the end of the text
    rcases Braces.within_or_balanced 0 inner with hin | ⟨inner, after, rfl, hin, hc⟩
    · rw [Braces.region_of_within hin] at hs ⊢
      obtain rfl := List.append_right_eq_self.mp hs
      exact .openInterpolation hi hin
    · rw [← List.cons_append, ← List.cons_append, Braces.region_of_balanced after hin hc]
      exact .interpolation hi hin hc
  · by_cases hc : c = '\\'
    · subst hc
      rw [Piece.read_backslash] at hs hw ⊢
      cases hr : Escape.read cs with
      | error fault =>
        rw [hr] at hw
        cases hw
      | ok reading =>
        rw [hr] at hs
        obtain ⟨source, after, rfl, hl, he⟩ := spelled_of_read hr
        simp only [← hl, List.take_left] at hs ⊢
        obtain rfl := List.append_cancel_left hs
        exact .escape he
    · rw [Piece.read, if_neg ho, if_neg hc] at hs ⊢
      obtain ⟨-, rfl⟩ := List.cons.inj hs
      rw [Bool.and_eq_true, Piece.opens_cons_iff] at ho
      exact .char hc ho

lemma IsUnit.isWellFormed {interpolations : Bool} {unit : Piece} {rest : List Char}
    (h : IsUnit interpolations unit rest) : unit.IsWellFormed := by
  cases h <;> trivial

lemma IsUnit.source_ne_nil {interpolations : Bool} {unit : Piece} {rest : List Char}
    (h : IsUnit interpolations unit rest) : unit.source ≠ [] := by
  cases h <;> exact List.cons_ne_nil _ _

lemma reads_iff {interpolations : Bool} {cs : List Char} {units : List Piece} :
    Reads interpolations cs units ↔
      pieces interpolations cs = units ∧ ∀ unit ∈ units, unit.IsWellFormed := by
  constructor
  · intro h
    induction h with
    | nil => exact ⟨by rw [pieces], by simp⟩
    | @cons unit rest units hu _ ih =>
      obtain ⟨c, cs, hs⟩ := List.exists_cons_of_ne_nil (List.append_ne_nil_of_left_ne_nil hu.source_ne_nil rest)
      refine ⟨?_, ?_⟩
      · rw [hs, pieces, hu.read_eq hs, ← hs, List.drop_left, ih.1]
      · intro unit' hm
        rcases List.mem_cons.mp hm with rfl | hm
        · exact hu.isWellFormed
        · exact ih.2 unit' hm
  · rintro ⟨rfl, hw⟩
    fun_induction pieces interpolations cs with
    | case1 => exact .nil
    | case2 c cs ih =>
      have hs := Piece.read_source_append interpolations c cs
      have hu := isUnit_read hs (hw _ List.mem_cons_self)
      have := Reads.cons hu (ih fun unit hm => hw unit (List.mem_cons_of_mem _ hm))
      rwa [hs] at this

lemma firstError?_eq_none_iff {start : Nat} {ps : List Piece} :
    firstError? false start ps = none ↔ ∀ p ∈ ps, p.IsWellFormed := by
  induction ps generalizing start with
  | nil => simp [firstError?]
  | cons p ps ih =>
    rw [List.forall_mem_cons]
    cases p with
    | malformed source fault => simp [firstError?, Piece.IsWellFormed]
    | verbatim source => simp [firstError?, Piece.IsWellFormed, ih]
    | escape source meaning => simp [firstError?, Piece.IsWellFormed, ih]

lemma flatMap_source_pieces (interpolations : Bool) (cs : List Char) :
    (pieces interpolations cs).flatMap Piece.source = cs := by
  fun_induction pieces interpolations cs with
  | case1 => rfl
  | case2 c cs ih => rw [List.flatMap_cons, ih, Piece.read_source_append]

lemma Piece.length_offsets (start : Nat) (p : Piece) :
    (p.offsets start).length = Text.size p.value := by
  cases p <;> simp [offsets, value]

lemma length_offsetTable (start : Nat) (ps : List Piece) :
    (offsetTable start ps).length = Text.size (ps.flatMap Piece.value) + 1 := by
  induction ps generalizing start with
  | nil => rfl
  | cons p ps ih =>
    rw [offsetTable, List.length_append, ih, Piece.length_offsets, List.flatMap_cons,
      Text.size_append, Nat.add_assoc]

lemma getLast?_offsetTable (start : Nat) (ps : List Piece) :
    (offsetTable start ps).getLast? = some (start + Text.size (ps.flatMap Piece.source)) := by
  induction ps generalizing start with
  | nil => rfl
  | cons p ps ih =>
    rw [offsetTable, List.getLast?_append, ih, List.flatMap_cons, Text.size_append, Nat.add_assoc]
    rfl

lemma getElem?_offsetTable (start : Nat) (before after : List Piece) (p : Piece) {j : Nat}
    (hj : j < Text.size p.value) :
    (offsetTable start (before ++ p :: after))[Text.size (before.flatMap Piece.value) + j]? =
      (p.offsets (start + Text.size (before.flatMap Piece.source)))[j]? := by
  induction before generalizing start with
  | nil =>
    simp only [List.nil_append, List.flatMap_nil, Text.size_nil, Nat.zero_add, Nat.add_zero,
      offsetTable]
    exact List.getElem?_append_left (by rwa [Piece.length_offsets])
  | cons q before ih =>
    rw [List.cons_append, offsetTable, List.flatMap_cons, List.flatMap_cons, Text.size_append,
      Text.size_append, ← Piece.length_offsets start q, Nat.add_assoc, List.getElem?_append_right (by omega),
      Nat.add_sub_cancel_left, ih, Nat.add_assoc]

lemma Piece.read_of_ne (interpolations : Bool) {c : Char} (hc : c ≠ '\\') (cs : List Char) :
    read interpolations c cs = .verbatim (read interpolations c cs).source := by
  unfold read
  split
  · rfl
  · rfl

lemma pieces_of_not_mem (interpolations : Bool) {cs : List Char} (h : '\\' ∉ cs) :
    ∀ p ∈ pieces interpolations cs, p = .verbatim p.source := by
  fun_induction pieces interpolations cs with
  | case1 => simp
  | case2 c cs ih =>
    rw [List.forall_mem_cons]
    refine ⟨Piece.read_of_ne _ (fun hc => h (by simp [hc])) cs, ?_⟩
    apply ih
    intro hm
    exact h (List.mem_of_mem_drop hm)

lemma flatMap_value_of_verbatim {ps : List Piece} (h : ∀ p ∈ ps, p = .verbatim p.source) :
    ps.flatMap Piece.value = ps.flatMap Piece.source := by
  induction ps with
  | nil => rfl
  | cons p ps ih =>
    rw [List.forall_mem_cons] at h
    rw [List.flatMap_cons, List.flatMap_cons, ih h.2, h.1]
    rfl

lemma offsetTable_of_verbatim (start : Nat) {ps : List Piece} (h : ∀ p ∈ ps, p = .verbatim p.source) :
    offsetTable start ps = List.range' start (Text.size (ps.flatMap Piece.source) + 1) := by
  induction ps generalizing start with
  | nil => rfl
  | cons p ps ih =>
    rw [List.forall_mem_cons] at h
    have hp : p.offsets start = List.range' start (Text.size p.source) := by rw [h.1]; rfl
    rw [offsetTable, ih _ h.2, hp, List.range'_append_1, List.flatMap_cons, Text.size_append,
      Nat.add_assoc]

lemma ofPieces_of_verbatim {interpolations : Bool} {text : String}
    (h : ∀ p ∈ pieces interpolations text.toList, p = .verbatim p.source) :
    Decoded.ofPieces (pieces interpolations text.toList) = Decoded.verbatim text := by
  rw [Decoded.ofPieces, flatMap_value_of_verbatim h, offsetTable_of_verbatim 0 h,
    flatMap_source_pieces, String.ofList_toList, ← List.range_eq_range']
  rfl

lemma ofPieces_of_not_mem (interpolations : Bool) {text : String} (h : '\\' ∉ text.toList) :
    Decoded.ofPieces (pieces interpolations text.toList) = Decoded.verbatim text :=
  ofPieces_of_verbatim (pieces_of_not_mem interpolations h)

lemma decode_eq_decodePieces (interpolations : Bool) (text : String) :
    decode interpolations text = decodePieces false interpolations text := by
  rw [decode]
  split
  · rfl
  · rename_i h
    have hw : firstError? false 0 (pieces interpolations text.toList) = none := by
      rw [firstError?_eq_none_iff]
      intro p hp
      rw [pieces_of_not_mem interpolations h p hp]
      trivial
    rw [decodePieces]
    simp only [hw]
    rw [ofPieces_of_not_mem interpolations h]

lemma decode_eq_ok_iff {interpolations : Bool} {text : String} {d : Decoded} :
    decode interpolations text = .ok d ↔
      ∃ units, Reads interpolations text.toList units ∧ d = Decoded.ofPieces units := by
  rw [decode_eq_decodePieces, decodePieces]
  simp only [reads_iff]
  constructor
  · intro h
    split at h
    · cases h
    · rename_i hw
      cases h
      exact ⟨_, ⟨rfl, firstError?_eq_none_iff.mp hw⟩, rfl⟩
  · rintro ⟨units, ⟨rfl, hw⟩, rfl⟩
    rw [firstError?_eq_none_iff.mpr hw]

/-- The value is what the units stand for. Each byte of a unit that stands for itself comes from its
own place in the source, and each byte of an escape from the backslash. -/
structure Describes (d : Decoded) (units : List Piece) : Prop where
  value : d.value.toList = units.flatMap Piece.value
  length : d.offsets.length = d.size + 1
  last : d.offsets.getLast? = some (Text.size (units.flatMap Piece.source))
  verbatim : ∀ before source after, units = before ++ .verbatim source :: after →
    ∀ j < Text.size source, d.sourceOffset? (Text.size (before.flatMap Piece.value) + j) =
      some (Text.size (before.flatMap Piece.source) + j)
  escape : ∀ before source meaning after, units = before ++ .escape source meaning :: after →
    ∀ j < meaning.utf8Size, d.sourceOffset? (Text.size (before.flatMap Piece.value) + j) =
      some (Text.size (before.flatMap Piece.source))

lemma describes_ofPieces (units : List Piece) : Describes (Decoded.ofPieces units) units where
  value := String.toList_ofList
  length := by
    rw [Decoded.size, Decoded.ofPieces, String.toList_ofList]
    exact length_offsetTable 0 units
  last := by rw [Decoded.ofPieces, getLast?_offsetTable, Nat.zero_add]
  verbatim := by
    rintro before source after rfl j hj
    rw [Decoded.sourceOffset?, Decoded.ofPieces, getElem?_offsetTable 0 before after _ hj, Nat.zero_add,
      Piece.offsets, List.getElem?_range' hj, Nat.one_mul]
  escape := by
    rintro before source meaning after rfl j hj
    have hs : j < Text.size (Piece.escape source meaning).value := by simpa [Piece.value] using hj
    rw [Decoded.sourceOffset?, Decoded.ofPieces, getElem?_offsetTable 0 before after _ hs, Nat.zero_add,
      Piece.offsets, List.getElem?_replicate_of_lt hj]

/-- Strict decoding succeeds exactly on the sequences of units. A text is such a sequence in at most one
way, and the result is what its units describe. -/
theorem decode_succeeds_on_units (interpolations : Bool) (text : String) :
    ((∃ d, decode interpolations text = .ok d) ↔ ∃ units, Reads interpolations text.toList units) ∧
    (∀ units units', Reads interpolations text.toList units →
      Reads interpolations text.toList units' → units = units') ∧
    ∀ d, decode interpolations text = .ok d →
      ∃ units, Reads interpolations text.toList units ∧ Describes d units := by
  refine ⟨⟨?_, ?_⟩, ?_, ?_⟩
  · rintro ⟨d, hd⟩
    obtain ⟨units, hr, -⟩ := decode_eq_ok_iff.mp hd
    exact ⟨units, hr⟩
  · rintro ⟨units, hr⟩
    exact ⟨_, decode_eq_ok_iff.mpr ⟨units, hr, rfl⟩⟩
  · intro units units' hr hr'
    exact (reads_iff.mp hr).1.symm.trans (reads_iff.mp hr').1
  · intro d hd
    obtain ⟨units, hr, rfl⟩ := decode_eq_ok_iff.mp hd
    exact ⟨units, hr, describes_ofPieces units⟩

theorem decode_of_mixed_units :
    decode true "é\\x41$\x7b\\q\x7d\\1018" =
        .ok ⟨"éA$\x7b\\q\x7dA8", [0, 1, 2, 6, 7, 8, 9, 10, 11, 15, 16]⟩ ∧
      ∃ units, Reads true "é\\x41$\x7b\\q\x7d\\1018".toList units ∧
        Describes ⟨"éA$\x7b\\q\x7dA8", [0, 1, 2, 6, 7, 8, 9, 10, 11, 15, 16]⟩ units := by
  have h : decode true "é\\x41$\x7b\\q\x7d\\1018" =
      .ok ⟨"éA$\x7b\\q\x7dA8", [0, 1, 2, 6, 7, 8, 9, 10, 11, 15, 16]⟩ := by decide +kernel
  exact ⟨h, (decode_succeeds_on_units true _).2.2 _ h⟩

end HclLiteral.Escape
