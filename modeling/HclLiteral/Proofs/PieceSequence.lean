import HclLiteral.Proofs.Decode
import Mathlib.Data.List.Basic

namespace HclLiteral.Escape

lemma offsetTable_ne_nil (start : Nat) (ps : List Piece) : offsetTable start ps ≠ [] := by
  apply List.ne_nil_of_length_pos
  rw [length_offsetTable]
  exact Nat.succ_pos _

lemma head?_offsetTable (start : Nat) (ps : List Piece) :
    (offsetTable start ps).head? = some start := by
  induction ps generalizing start with
  | nil => rfl
  | cons p ps ih =>
    rw [offsetTable, List.head?_append, ih]
    cases p with
    | verbatim source | malformed source fault =>
      rw [Piece.offsets, Piece.source]
      cases Text.size source with
      | zero => rfl
      | succ n => rfl
    | escape source meaning =>
      obtain ⟨n, hn⟩ := Nat.exists_eq_succ_of_ne_zero (Nat.ne_of_gt meaning.utf8Size_pos)
      rw [Piece.offsets, hn]
      rfl

lemma offsetTable_append (start : Nat) (ps qs : List Piece) :
    offsetTable start (ps ++ qs) =
      (offsetTable start ps).dropLast ++
        offsetTable (start + Text.size (ps.flatMap Piece.source)) qs := by
  induction ps generalizing start with
  | nil => rfl
  | cons p ps ih =>
    rw [List.cons_append, offsetTable, ih, offsetTable,
      List.dropLast_append_of_ne_nil (offsetTable_ne_nil _ ps), List.append_assoc, List.flatMap_cons,
      Text.size_append, Nat.add_assoc]

lemma offsetTable_append_tail (start : Nat) (ps qs : List Piece) :
    offsetTable start (ps ++ qs) =
      offsetTable start ps ++
        (offsetTable (start + Text.size (ps.flatMap Piece.source)) qs).tail := by
  have hlast := getLast?_offsetTable start ps
  have hhead := head?_offsetTable (start + Text.size (ps.flatMap Piece.source)) qs
  obtain ⟨front, hfront⟩ := List.getLast?_eq_some_iff.mp hlast
  obtain ⟨back, hback⟩ := List.head?_eq_some_iff.mp hhead
  rw [offsetTable_append, hfront, hback, List.dropLast_concat, List.append_assoc]
  rfl

lemma sourceOffset?_append (ps qs : List Piece) :
    (Decoded.ofPieces (ps ++ qs)).sourceOffset? (Text.size (ps.flatMap Piece.value)) =
      some (Text.size (ps.flatMap Piece.source)) := by
  have hlen : (offsetTable 0 ps).dropLast.length = Text.size (ps.flatMap Piece.value) := by
    rw [List.length_dropLast, length_offsetTable, Nat.add_sub_cancel]
  rw [Decoded.sourceOffset?, Decoded.ofPieces, offsetTable_append,
    List.getElem?_append_right (Nat.le_of_eq hlen), hlen, Nat.sub_self, ← List.head?_eq_getElem?,
    head?_offsetTable, Nat.zero_add]

lemma Piece.offsets_add (m n : Nat) (p : Piece) : p.offsets (m + n) = (p.offsets n).map (m + ·) := by
  cases p with
  | verbatim source | malformed source fault => exact (List.map_add_range' n _ 1).symm
  | escape source meaning => exact List.map_replicate.symm

lemma offsetTable_add (m n : Nat) (ps : List Piece) :
    offsetTable (m + n) ps = (offsetTable n ps).map (m + ·) := by
  induction ps generalizing n with
  | nil => rfl
  | cons p ps ih => rw [offsetTable, offsetTable, List.map_append, Piece.offsets_add, Nat.add_assoc, ih]

lemma offsetTable_eq_map (start : Nat) (ps : List Piece) :
    offsetTable start ps = (offsetTable 0 ps).map (start + ·) := offsetTable_add start 0 ps

variable {lossy interpolations : Bool}

lemma pieces_eq_append {cs : List Char} {ps qs : List Piece}
    (h : pieces interpolations cs = ps ++ qs) :
    ∃ rest, cs = ps.flatMap Piece.source ++ rest ∧ pieces interpolations rest = qs := by
  induction ps generalizing cs with
  | nil => exact ⟨cs, rfl, h⟩
  | cons p ps ih =>
    cases cs with
    | nil =>
      rw [pieces] at h
      cases h
    | cons c cs =>
      rw [pieces, List.cons_append] at h
      obtain ⟨hp, hps⟩ := List.cons.inj h
      obtain ⟨rest, hrest, hqs⟩ := ih hps
      refine ⟨rest, ?_, hqs⟩
      rw [List.flatMap_cons, List.append_assoc, ← hrest, ← hp, Piece.read_source_append]

lemma pieces_eq_cons {cs : List Char} {p : Piece} {ps : List Piece}
    (h : pieces interpolations cs = p :: ps) :
    ∃ c tail, cs = c :: tail ∧ Piece.read interpolations c tail = p := by
  cases cs with
  | nil =>
    rw [pieces] at h
    cases h
  | cons c tail =>
    rw [pieces] at h
    exact ⟨c, tail, rfl, (List.cons.inj h).1⟩

lemma pieces_append_of_read {c : Char} {cs rest : List Char}
    (h : (Piece.read interpolations c cs).source ++ rest = c :: cs) :
    pieces interpolations (c :: cs) = Piece.read interpolations c cs :: pieces interpolations rest := by
  have hd : (c :: cs).drop (Piece.read interpolations c cs).source.length = rest := by
    rw [← h, List.drop_left]
  rw [pieces, hd]

lemma Piece.read_eq_malformed {c : Char} {cs source : List Char} {fault : Fault}
    (h : read interpolations c cs = .malformed source fault) :
    c = '\\' ∧ source = '\\' :: cs.take 1 ∧ Escape.read cs = .error fault := by
  by_cases hc : c = '\\'
  · subst hc
    rw [read_backslash] at h
    cases hr : Escape.read cs with
    | ok reading =>
      rw [hr] at h
      cases h
    | error fault =>
      rw [hr] at h
      cases h
      exact ⟨rfl, rfl, rfl⟩
  · rw [read_of_ne interpolations hc] at h
    cases h

lemma Spelled.of_prefix {source rest front : List Char} {meaning : Char}
    (h : Spelled source rest meaning) (hf : front <+: rest) : Spelled source front meaning := by
  obtain ⟨back, rfl⟩ := hf
  cases h with
  | letter hm => exact .letter hm
  | octal hn hs hl hr =>
    exact .octal hn hs hl fun hlt c hc => hr hlt c (List.mem_head?_append_of_mem_head? hc)
  | hex hm hl hs hn hr => exact .hex hm hl hs hn hr

lemma IsUnit.of_prefix {unit : Piece} {rest front : List Char} (h : IsUnit interpolations unit rest)
    (hf : front <+: rest) : IsUnit interpolations unit front := by
  cases h with
  | char hc hi =>
    obtain ⟨back, rfl⟩ := hf
    apply IsUnit.char hc
    intro h
    exact hi ⟨h.1, h.2.1, List.mem_head?_append_of_mem_head? h.2.2⟩
  | interpolation hi hw hc => exact .interpolation hi hw hc
  | openInterpolation hi hw =>
    rw [List.prefix_nil.mp hf]
    exact .openInterpolation hi hw
  | escape hs => exact .escape (hs.of_prefix hf)

lemma read_error_of_prefix {cs front : List Char} {fault : Fault} (h : read cs = .error fault)
    (hf : front <+: cs) : ∃ fault', read front = .error fault' := by
  cases hr : read front with
  | error fault' => exact ⟨fault', rfl⟩
  | ok r =>
    obtain ⟨source, rest, rfl, -, hs⟩ := spelled_of_read hr
    obtain ⟨back, rfl⟩ := hf
    cases hs with
    | letter hm =>
      have hs : Spelled _ (rest ++ back) _ := .letter hm
      rw [List.append_assoc, read_of_spelled hs] at h
      cases h
    | octal hn hs hl hr =>
      -- cut off from more digits, the escape may have been longer, but it was one
      obtain ⟨c, digits, rfl⟩ := List.exists_cons_of_ne_nil hn
      have hc := (Numeral.spells_octal_iff.mp hs).1 c List.mem_cons_self
      rw [List.append_assoc, List.cons_append, read] at h
      simp only [(octal_head hc digits).1, if_pos hc] at h
      cases h
    | hex hm hl hs hn hr =>
      have hs : Spelled _ (rest ++ back) _ := .hex hm hl hs hn hr
      rw [List.append_assoc, read_of_spelled hs] at h
      cases h

def Piece.Admitted (lossy : Bool) (p : Piece) : Prop := lossy = false → p.IsWellFormed

lemma firstError?_lossy (start : Nat) (ps : List Piece) : firstError? true start ps = none := by
  induction ps generalizing start with
  | nil => rfl
  | cons p ps ih => cases p <;> exact ih _

lemma firstError?_eq_none (start : Nat) {ps : List Piece} :
    firstError? lossy start ps = none ↔ ∀ p ∈ ps, p.Admitted lossy := by
  cases lossy with
  | false =>
    rw [firstError?_eq_none_iff]
    exact forall₂_congr fun p _ => ⟨fun h _ => h, fun h => h rfl⟩
  | true =>
    rw [firstError?_lossy]
    exact iff_of_true rfl fun p _ h => nomatch h

lemma firstError?_eq_some {start : Nat} {ps : List Piece} {e : DecodeError}
    (h : firstError? false start ps = some e) :
    ∃ front source back, ps = front ++ .malformed source e.fault :: back ∧
      (∀ p ∈ front, p.IsWellFormed) ∧ start + Text.size (front.flatMap Piece.source) = e.offset := by
  induction ps generalizing start with
  | nil => cases h
  | cons p ps ih =>
    cases p with
    | malformed source fault =>
      cases h
      exact ⟨[], source, ps, rfl, by simp, rfl⟩
    | verbatim source | escape source meaning =>
      obtain ⟨front, src, back, rfl, hw, ho⟩ := ih h
      refine ⟨_ :: front, src, back, rfl, List.forall_mem_cons.mpr ⟨trivial, hw⟩, ?_⟩
      rw [List.flatMap_cons, Text.size_append, ← Nat.add_assoc]
      exact ho

lemma decodePieces_eq_ok_iff {text : String} {d : Decoded} :
    decodePieces lossy interpolations text = .ok d ↔
      (∀ p ∈ pieces interpolations text.toList, p.Admitted lossy) ∧
        Decoded.ofPieces (pieces interpolations text.toList) = d := by
  rw [← firstError?_eq_none 0, decodePieces]
  cases firstError? lossy 0 (pieces interpolations text.toList) <;> simp

lemma decodePieces_lossy (interpolations : Bool) (text : String) :
    decodePieces true interpolations text = .ok (decodeLossy interpolations text) := by
  have hp : decodePieces true interpolations text =
      .ok (Decoded.ofPieces (pieces interpolations text.toList)) :=
    decodePieces_eq_ok_iff.mpr ⟨fun p _ h => (nomatch h), rfl⟩
  rw [decodeLossy]
  split
  · rw [hp]
  · rename_i hb
    rw [hp, ofPieces_of_not_mem interpolations hb]

end HclLiteral.Escape
