import HclLiteral.Proofs.PieceSequence
import HclLiteral.Proofs.Utf8

/-! Strict and lossy decoding of one text. They agree where the strict one succeeds. Where it fails, the
lossy one keeps the malformed escape and goes on behind it like a fresh run. -/

namespace HclLiteral.Escape

inductive ReadsBefore (interpolations : Bool) (rest : List Char) : List Char → List Piece → Prop
  | nil : ReadsBefore interpolations rest [] []
  | cons {unit : Piece} {cs : List Char} {units : List Piece} :
      IsUnit interpolations unit (cs ++ rest) → ReadsBefore interpolations rest cs units →
      ReadsBefore interpolations rest (unit.source ++ cs) (unit :: units)

variable {interpolations : Bool}

lemma ReadsBefore.reads {rest cs : List Char} {units : List Piece}
    (h : ReadsBefore interpolations rest cs units) : Reads interpolations cs units := by
  induction h with
  | nil => exact .nil
  | cons hu _ ih => exact .cons (hu.of_prefix (List.prefix_append _ _)) ih

lemma readsBefore_of_pieces {cs rest : List Char} {units ps : List Piece}
    (h : pieces interpolations cs = units ++ ps) (hw : ∀ unit ∈ units, unit.IsWellFormed)
    (hs : cs = units.flatMap Piece.source ++ rest) :
    ReadsBefore interpolations rest (units.flatMap Piece.source) units := by
  induction units generalizing cs with
  | nil => exact .nil
  | cons unit units ih =>
    obtain ⟨c, tail, rfl, rfl⟩ := pieces_eq_cons h
    rw [List.forall_mem_cons] at hw
    rw [List.flatMap_cons, List.append_assoc] at hs
    rw [pieces_append_of_read hs.symm, List.cons_append] at h
    rw [List.flatMap_cons]
    exact .cons (isUnit_read hs.symm hw.1) (ih (List.cons.inj h).2 hw.2 rfl)

/-- The text has a malformed escape behind `before`, and nothing but units in front of it: it is in no
interpolation, and no escape before it is malformed. -/
structure FirstMalformed (interpolations : Bool) (text : String) (e : DecodeError)
    (before after : List Char) : Prop where
  source : text.toList = before ++ '\\' :: after
  offset : Text.size before = e.offset
  units : ∃ units, ReadsBefore interpolations ('\\' :: after) before units
  fault : read after = .error e.fault
  notSpelled : ¬ ∃ source rest meaning, after = source ++ rest ∧ Spelled source rest meaning

/-- The value is in three parts. The part in the middle stands for itself and starts at `offset` in
the source. -/
structure Joins (d front : Decoded) (offset : Nat) (kept : List Char) (back : Decoded) : Prop where
  value : d.value.toList = front.value.toList ++ kept ++ back.value.toList
  offsets : d.offsets = front.offsets.dropLast ++ List.range' offset (Text.size kept) ++
    back.offsets.map (offset + Text.size kept + ·)

lemma joins_ofPieces (front back : List Piece) (kept : List Char) (fault : Fault) :
    Joins (Decoded.ofPieces (front ++ .malformed kept fault :: back)) (Decoded.ofPieces front)
      (Text.size (front.flatMap Piece.source)) kept (Decoded.ofPieces back) where
  value := by
    simp only [Decoded.ofPieces, String.toList_ofList, List.flatMap_append, List.flatMap_cons,
      List.append_assoc]
    rfl
  offsets := by
    rw [Decoded.ofPieces, Decoded.ofPieces, Decoded.ofPieces, offsetTable_append, offsetTable,
      Nat.zero_add, ← offsetTable_eq_map, List.append_assoc]
    rfl

lemma decodeLossy_eq (interpolations : Bool) (text : String) :
    decodeLossy interpolations text = Decoded.ofPieces (pieces interpolations text.toList) :=
  (decodePieces_eq_ok_iff.mp (decodePieces_lossy interpolations text)).2.symm

lemma decodeLossy_of_decode_ok {text : String} {d : Decoded}
    (h : decode interpolations text = .ok d) : decodeLossy interpolations text = d := by
  rw [decode_eq_decodePieces] at h
  rw [decodeLossy_eq]
  exact (decodePieces_eq_ok_iff.mp h).2

lemma pieces_of_decode_error {text : String} {e : DecodeError}
    (h : decode interpolations text = .error e) :
    ∃ before after units, FirstMalformed interpolations text e before after ∧
      Reads interpolations before units ∧ units.flatMap Piece.source = before ∧
      pieces interpolations text.toList =
        units ++ .malformed ('\\' :: after.take 1) e.fault :: pieces interpolations (after.drop 1) := by
  rw [decode_eq_decodePieces, decodePieces] at h
  cases he : firstError? false 0 (pieces interpolations text.toList) with
  | none =>
    rw [he] at h
    cases h
  | some e' =>
    rw [he] at h
    cases h
    obtain ⟨units, source, back, hp, hw, ho⟩ := firstError?_eq_some he
    obtain ⟨tail, ht, htail⟩ := pieces_eq_append hp
    obtain ⟨c, after, rfl, hr⟩ := pieces_eq_cons htail
    obtain ⟨rfl, rfl, hf⟩ := Piece.read_eq_malformed hr
    have hb := readsBefore_of_pieces hp hw ht
    refine ⟨_, after, units, ⟨ht, ?_, ⟨units, hb⟩, hf, ?_⟩, hb.reads, rfl, ?_⟩
    · rw [← ho, Nat.zero_add]
    · rintro ⟨src, rest, meaning, rfl, hs⟩
      rw [read_of_spelled hs] at hf
      cases hf
    · have hd : (Piece.read interpolations '\\' after).source ++ after.drop 1 = '\\' :: after := by
        rw [hr, Piece.source, List.cons_append, List.take_append_drop]
      rw [pieces_append_of_read hd, hr] at htail
      rw [hp, ← (List.cons.inj htail).2]

/-- Lossy decoding never falls back on the text as it is. It gives what strict decoding gives, or, from
the first malformed escape on, that escape as it is and then what it gives for the rest. -/
theorem decodeLossy_resumes_after_error (interpolations : Bool) (text : String) :
    decodePieces true interpolations text = .ok (decodeLossy interpolations text) ∧
    (∀ d, decode interpolations text = .ok d → decodeLossy interpolations text = d) ∧
    ∀ e, decode interpolations text = .error e →
      (Text.bytes text)[e.offset]? = some 0x5C ∧
      ∃ before after front, FirstMalformed interpolations text e before after ∧
        decode interpolations (String.ofList before) = .ok front ∧
        Joins (decodeLossy interpolations text) front e.offset ('\\' :: after.take 1)
          (decodeLossy interpolations (String.ofList (after.drop 1))) := by
  refine ⟨decodePieces_lossy interpolations text, fun d => decodeLossy_of_decode_ok, ?_⟩
  intro e he
  obtain ⟨before, after, units, hm, hr, rfl, hp⟩ := pieces_of_decode_error he
  refine ⟨?_, _, after, Decoded.ofPieces units, hm, ?_, ?_⟩
  · exact (Text.getElem?_encode_eq_iff (c := '\\') (by decide)).mpr ⟨_, after, hm.source, hm.offset⟩
  · rw [decode_eq_ok_iff, String.toList_ofList]
    exact ⟨units, hr, rfl⟩
  · rw [decodeLossy_eq, decodeLossy_eq, hp, String.toList_ofList, ← hm.offset]
    exact joins_ofPieces units _ _ _

theorem decodeLossy_resumes_after_wide_letter :
    decode true "é\\n$\x7b\\q\x7d\\é\\u12" = .error ⟨9, .unknownLetter 'é'⟩ ∧
      ∃ before after front,
        FirstMalformed true "é\\n$\x7b\\q\x7d\\é\\u12" ⟨9, .unknownLetter 'é'⟩ before after ∧
        decode true (String.ofList before) = .ok front ∧
        Joins (decodeLossy true "é\\n$\x7b\\q\x7d\\é\\u12") front 9 ('\\' :: after.take 1)
          (decodeLossy true (String.ofList (after.drop 1))) := by
  have h : decode true "é\\n$\x7b\\q\x7d\\é\\u12" = .error ⟨9, .unknownLetter 'é'⟩ := by
    decide +kernel
  exact ⟨h, ((decodeLossy_resumes_after_error true _).2.2 _ h).2⟩

end HclLiteral.Escape
