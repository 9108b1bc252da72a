import HclLiteral.Proofs.PieceSequence
import HclLiteral.Proofs.Utf8

/-! Cutting decoded text. Pieces are split into atoms, which stand for one character each, so that a cut
of the value is a cut between two atoms. The atoms before a cut are those of the text before it, and
without interpolations the atoms after it are those of the text after it. -/

namespace HclLiteral.Escape

namespace Piece

def atoms : Piece → List Piece
  | verbatim source | malformed source _ => source.map fun c => verbatim [c]
  | escape source meaning => [escape source meaning]

lemma flatMap_source_singles (cs : List Char) :
    (cs.map fun c => verbatim [c]).flatMap source = cs := by
  induction cs with
  | nil => rfl
  | cons c cs ih => rw [List.map_cons, List.flatMap_cons, ih]; rfl

lemma flatMap_value_singles (cs : List Char) :
    (cs.map fun c => verbatim [c]).flatMap value = cs := by
  induction cs with
  | nil => rfl
  | cons c cs ih => rw [List.map_cons, List.flatMap_cons, ih]; rfl

lemma flatMap_source_atoms (p : Piece) : p.atoms.flatMap source = p.source := by
  cases p with
  | verbatim source | malformed source fault => exact flatMap_source_singles source
  | escape source meaning => exact List.append_nil source

lemma flatMap_value_atoms (p : Piece) : p.atoms.flatMap value = p.value := by
  cases p with
  | verbatim source | malformed source fault => exact flatMap_value_singles source
  | escape source meaning => rfl

lemma exists_value_of_mem_atoms {p a : Piece} (h : a ∈ p.atoms) : ∃ c, a.value = [c] := by
  cases p with
  | verbatim source | malformed source fault =>
    obtain ⟨c, -, rfl⟩ := List.mem_map.mp h
    exact ⟨c, rfl⟩
  | escape source meaning =>
    rw [List.mem_singleton.mp h]
    exact ⟨meaning, rfl⟩

lemma offsetTable_singles (start : Nat) (cs : List Char) :
    (offsetTable start (cs.map fun c => verbatim [c])).dropLast =
      List.range' start (Text.size cs) := by
  have hv : ∀ p ∈ cs.map fun c => verbatim [c], p = .verbatim p.source := by
    intro p hp
    obtain ⟨c, -, rfl⟩ := List.mem_map.mp hp
    rfl
  rw [offsetTable_of_verbatim start hv, flatMap_source_singles, List.range'_1_concat,
    List.dropLast_concat]

lemma offsetTable_atoms (start : Nat) (p : Piece) :
    (offsetTable start p.atoms).dropLast = p.offsets start := by
  cases p with
  | verbatim source | malformed source fault => exact offsetTable_singles start source
  | escape source meaning => exact List.dropLast_concat

end Piece

lemma flatMap_source_flatMap_atoms (ps : List Piece) :
    (ps.flatMap Piece.atoms).flatMap Piece.source = ps.flatMap Piece.source := by
  rw [List.flatMap_assoc]
  simp only [Piece.flatMap_source_atoms]

lemma flatMap_value_flatMap_atoms (ps : List Piece) :
    (ps.flatMap Piece.atoms).flatMap Piece.value = ps.flatMap Piece.value := by
  rw [List.flatMap_assoc]
  simp only [Piece.flatMap_value_atoms]

lemma offsetTable_flatMap_atoms (start : Nat) (ps : List Piece) :
    offsetTable start (ps.flatMap Piece.atoms) = offsetTable start ps := by
  induction ps generalizing start with
  | nil => rfl
  | cons p ps ih =>
    rw [List.flatMap_cons, offsetTable_append, Piece.offsetTable_atoms, Piece.flatMap_source_atoms, ih,
      offsetTable]

lemma ofPieces_flatMap_atoms (ps : List Piece) :
    Decoded.ofPieces (ps.flatMap Piece.atoms) = Decoded.ofPieces ps := by
  rw [Decoded.ofPieces, Decoded.ofPieces, flatMap_value_flatMap_atoms, offsetTable_flatMap_atoms]

lemma exists_append_of_value {as : List Piece} (ha : ∀ a ∈ as, ∃ c, a.value = [c])
    {front back : List Char} (h : as.flatMap Piece.value = front ++ back) :
    ∃ before after, as = before ++ after ∧ before.flatMap Piece.value = front ∧
      after.flatMap Piece.value = back := by
  induction front generalizing as with
  | nil => exact ⟨[], as, rfl, rfl, h⟩
  | cons c front ih =>
    cases as with
    | nil => cases h
    | cons a as =>
      rw [List.forall_mem_cons] at ha
      obtain ⟨⟨d, hd⟩, ha⟩ := ha
      rw [List.flatMap_cons, hd] at h
      obtain ⟨rfl, htail⟩ := List.cons.inj h
      obtain ⟨before, after, rfl, rfl, rfl⟩ := ih ha htail
      exact ⟨a :: before, after, rfl, by rw [List.flatMap_cons, hd]; rfl, rfl⟩

lemma append_ne_singleton {α : Type} {front back : List α} (hf : front ≠ []) (hb : back ≠ []) (a : α) :
    front ++ back ≠ [a] := by
  intro h
  rcases List.append_eq_singleton_iff.mp h with ⟨hnil, -⟩ | ⟨-, hnil⟩
  · exact hf hnil
  · exact hb hnil

variable {lossy interpolations : Bool}

structure Decodes (lossy interpolations : Bool) (cs : List Char) (as : List Piece) : Prop where
  admitted : ∀ p ∈ pieces interpolations cs, p.Admitted lossy
  atoms : (pieces interpolations cs).flatMap Piece.atoms = as

namespace Decodes

lemma nil : Decodes lossy interpolations [] [] := by
  refine ⟨?_, ?_⟩ <;> rw [pieces]
  · exact List.forall_mem_nil _
  · rfl

lemma cons {c : Char} {cs rest : List Char} {as : List Piece}
    (hs : (Piece.read interpolations c cs).source ++ rest = c :: cs)
    (ha : (Piece.read interpolations c cs).Admitted lossy) (h : Decodes lossy interpolations rest as) :
    Decodes lossy interpolations (c :: cs) ((Piece.read interpolations c cs).atoms ++ as) := by
  refine ⟨?_, ?_⟩ <;> rw [pieces_append_of_read hs]
  · exact List.forall_mem_cons.mpr ⟨ha, h.admitted⟩
  · rw [List.flatMap_cons, h.atoms]

lemma of_isUnit {p : Piece} (h : IsUnit interpolations p []) :
    Decodes lossy interpolations p.source p.atoms := by
  have hr := reads_iff.mp (Reads.cons h .nil)
  rw [List.append_nil] at hr
  refine ⟨?_, ?_⟩ <;> rw [hr.1]
  · exact fun q hq _ => hr.2 q hq
  · exact List.append_nil p.atoms

lemma source {cs : List Char} {as : List Piece} (h : Decodes lossy interpolations cs as) :
    as.flatMap Piece.source = cs := by
  rw [← h.atoms, flatMap_source_flatMap_atoms, flatMap_source_pieces]

lemma exists_value {cs : List Char} {as : List Piece} (h : Decodes lossy interpolations cs as) :
    ∀ a ∈ as, ∃ c, a.value = [c] := by
  intro a ha
  rw [← h.atoms] at ha
  obtain ⟨p, -, hp⟩ := List.mem_flatMap.mp ha
  exact Piece.exists_value_of_mem_atoms hp

end Decodes

lemma decodePieces_eq_ok_iff_decodes {text : String} {d : Decoded} :
    decodePieces lossy interpolations text = .ok d ↔
      ∃ as, Decodes lossy interpolations text.toList as ∧ d = Decoded.ofPieces as := by
  rw [decodePieces_eq_ok_iff]
  constructor
  · rintro ⟨ha, rfl⟩
    exact ⟨_, ⟨ha, rfl⟩, (ofPieces_flatMap_atoms _).symm⟩
  · rintro ⟨_, ⟨ha, rfl⟩, rfl⟩
    exact ⟨ha, (ofPieces_flatMap_atoms _).symm⟩

lemma Piece.read_of_prefix {c : Char} {cs rest front : List Char}
    (hs : (read interpolations c cs).source ++ rest = c :: cs) (hf : front <+: rest)
    (ha : (read interpolations c cs).Admitted lossy) :
    ∃ ds, (read interpolations c cs).source ++ front = c :: ds ∧
      (read interpolations c ds).source = (read interpolations c cs).source ∧
      (read interpolations c ds).atoms = (read interpolations c cs).atoms ∧
      (read interpolations c ds).Admitted lossy := by
  by_cases hw : (read interpolations c cs).IsWellFormed
  · have hu := isUnit_read hs hw
    obtain ⟨x, xs, hx⟩ := List.exists_cons_of_ne_nil hu.source_ne_nil
    have hc : x = c := by
      rw [hx] at hs
      exact (List.cons.inj hs).1
    have hd : (read interpolations c cs).source ++ front = c :: (xs ++ front) := by
      rw [hx, hc]
      rfl
    exact ⟨xs ++ front, hd, by rw [(hu.of_prefix hf).read_eq hd]; exact ⟨rfl, rfl, ha⟩⟩
  · cases hr : read interpolations c cs with
    | verbatim source | escape source meaning =>
      rw [hr] at hw
      exact absurd trivial hw
    | malformed source fault =>
      obtain ⟨rfl, rfl, he⟩ := read_eq_malformed hr
      rw [hr] at hs ha
      have ht : cs.take 1 ++ rest = cs := (List.cons.inj hs).2
      have htake : (cs.take 1 ++ front).take 1 = cs.take 1 := by
        cases cs with
        | nil =>
          rw [(List.append_eq_nil_iff.mp ht).2, List.prefix_nil] at hf
          rw [hf]
          rfl
        | cons x cs => rfl
      have hp : cs.take 1 ++ front <+: cs := by
        conv_rhs => rw [← ht]
        exact (List.prefix_append_right_inj _).mpr hf
      obtain ⟨fault', he'⟩ := read_error_of_prefix he hp
      refine ⟨cs.take 1 ++ front, rfl, ?_⟩
      rw [read_backslash, he', htake]
      exact ⟨rfl, rfl, ha⟩

lemma isUnit_of_prefix_opener {front inner : List Char} (hi : interpolations = true)
    (hw : Braces.Within 0 inner) (hf : front ≠ []) (hp : front <+: '$' :: '{' :: inner) :
    IsUnit interpolations (.verbatim front) [] := by
  rcases List.prefix_cons_iff.mp hp with rfl | ⟨tail, rfl, ht⟩
  · exact absurd rfl hf
  · rcases List.prefix_cons_iff.mp ht with rfl | ⟨inside, rfl, hin⟩
    · apply IsUnit.char (by decide)
      rintro ⟨-, -, h⟩
      cases h
    · exact .openInterpolation hi fun part hpart => hw part (hpart.trans hin)

lemma IsUnit.front {front back rest : List Char}
    (h : IsUnit interpolations (.verbatim (front ++ back)) rest) (hf : front ≠ []) (hb : back ≠ []) :
    IsUnit interpolations (.verbatim front) [] := by
  generalize hs : front ++ back = source at h
  cases h with
  | char hc hi => exact absurd hs (append_ne_singleton hf hb _)
  | interpolation hi hw hc =>
    apply isUnit_of_prefix_opener hi hw hf
    rw [← List.dropLast_append_getLast hb, ← List.append_assoc] at hs
    obtain ⟨he, -⟩ := List.append_inj' hs rfl
    exact ⟨_, he⟩
  | openInterpolation hi hw => exact isUnit_of_prefix_opener hi hw hf ⟨back, hs⟩

lemma decodes_backslash : Decodes true interpolations ['\\'] [.verbatim ['\\']] := by
  have hr : Piece.read interpolations '\\' [] = .malformed ['\\'] .trailingBackslash :=
    Piece.read_backslash interpolations []
  have hs : (Piece.read interpolations '\\' []).source ++ [] = ['\\'] := by rw [hr]; rfl
  have h : Decodes true interpolations ['\\'] _ := .cons hs (fun h => nomatch h) .nil
  rw [hr] at h
  exact h

lemma decodes_front {c : Char} {cs rest : List Char} {before after : List Piece}
    (hs : (Piece.read interpolations c cs).source ++ rest = c :: cs)
    (ha : (Piece.read interpolations c cs).Admitted lossy)
    (h : (Piece.read interpolations c cs).atoms = before ++ after) (hn : after ≠ []) :
    Decodes lossy interpolations (before.flatMap Piece.source) before := by
  by_cases hb : before = []
  · rw [hb]
    exact .nil
  cases hr : Piece.read interpolations c cs with
  | escape source meaning =>
    rw [hr] at h
    exact absurd h.symm (append_ne_singleton hb hn _)
  | verbatim source =>
    have hu := isUnit_read hs (by rw [hr]; trivial)
    rw [hr] at h hu
    obtain ⟨front, back, rfl, rfl, rfl⟩ := List.map_eq_append_iff.mp h
    have hu := hu.front (fun hf => hb (by rw [hf]; rfl)) (fun hb => hn (by rw [hb]; rfl))
    rw [Piece.flatMap_source_singles]
    exact .of_isUnit hu
  | malformed source fault =>
    obtain ⟨rfl, rfl, -⟩ := Piece.read_eq_malformed hr
    rw [hr] at h ha
    obtain rfl : lossy = true := by
      cases lossy with
      | true => rfl
      | false => cases ha rfl
    -- what is left of a backslash and a character, but for the empty part, is the backslash
    cases cs with
    | nil => exact absurd h.symm (append_ne_singleton hb hn _)
    | cons x cs =>
      obtain ⟨p, before, rfl⟩ := List.exists_cons_of_ne_nil hb
      obtain ⟨rfl, htail⟩ := List.cons.inj h
      rcases List.append_eq_singleton_iff.mp htail.symm with ⟨rfl, -⟩ | ⟨-, hnil⟩
      · exact decodes_backslash
      · exact absurd hnil hn

lemma Decodes.before {cs : List Char} {before after : List Piece}
    (h : Decodes lossy interpolations cs (before ++ after)) :
    Decodes lossy interpolations (before.flatMap Piece.source) before := by
  obtain ⟨ha, h⟩ := h
  fun_induction pieces interpolations cs generalizing before with
  | case1 =>
    obtain ⟨rfl, -⟩ := List.append_eq_nil_iff.mp h.symm
    exact .nil
  | case2 c cs ih =>
    have hs := Piece.read_source_append interpolations c cs
    rw [List.forall_mem_cons] at ha
    rw [List.flatMap_cons] at h
    -- the cut is behind the first piece or inside it
    have hcut : (∃ more, before = (Piece.read interpolations c cs).atoms ++ more ∧
        (pieces interpolations ((c :: cs).drop (Piece.read interpolations c cs).source.length)).flatMap
          Piece.atoms = more ++ after) ∨
        ∃ part, (Piece.read interpolations c cs).atoms = before ++ part ∧ part ≠ [] := by
      rcases List.append_eq_append_iff.mp h with ⟨more, hb, hm⟩ | ⟨part, hp, hafter⟩
      · exact Or.inl ⟨more, hb, hm⟩
      · by_cases hn : part = []
        · rw [hn] at hp hafter
          rw [List.append_nil] at hp
          exact Or.inl ⟨[], by rw [hp, List.append_nil], hafter.symm⟩
        · exact Or.inr ⟨part, hp, hn⟩
    rcases hcut with ⟨more, rfl, hm⟩ | ⟨part, hp, hn⟩
    · have hrest := ih ha.2 hm
      have hprefix : more.flatMap Piece.source <+:
          (c :: cs).drop (Piece.read interpolations c cs).source.length := by
        have hsource := flatMap_source_pieces interpolations
          ((c :: cs).drop (Piece.read interpolations c cs).source.length)
        rw [← flatMap_source_flatMap_atoms, hm, List.flatMap_append] at hsource
        exact ⟨_, hsource⟩
      obtain ⟨ds, hd, hsource, hatoms, hadm⟩ := Piece.read_of_prefix hs hprefix ha.1
      rw [← hsource] at hd
      have := Decodes.cons hd hadm hrest
      rwa [hatoms, ← hd, hsource, ← Piece.flatMap_source_atoms, ← List.flatMap_append] at this
    · exact decodes_front hs ha.1 hp hn

lemma read_not_backslash {c : Char} {cs : List Char} {fault : Fault}
    (h : read (c :: cs) = .error fault) : c ≠ '\\' := by
  rintro rfl
  cases h

lemma Piece.read_inside {c : Char} {cs : List Char} {before after : List Piece}
    (h : (read false c cs).atoms = before ++ after) (hb : before ≠ []) (ha : after ≠ []) :
    ∃ x tail, cs = x :: tail ∧ x ≠ '\\' ∧ after = [.verbatim [x]] ∧
      (read false c cs).source = [c, x] := by
  by_cases hc : c = '\\'
  · subst hc
    rw [read_backslash] at h ⊢
    cases hr : Escape.read cs with
    | ok reading =>
      rw [hr] at h
      exact absurd h.symm (append_ne_singleton hb ha _)
    | error fault =>
      rw [hr] at h
      cases cs with
      | nil => exact absurd h.symm (append_ne_singleton hb ha _)
      | cons x tail =>
        refine ⟨x, tail, rfl, read_not_backslash hr, ?_, rfl⟩
        obtain ⟨p, before, rfl⟩ := List.exists_cons_of_ne_nil hb
        rcases List.append_eq_singleton_iff.mp (List.cons.inj h).2.symm with ⟨-, h⟩ | ⟨-, hnil⟩
        · exact h
        · exact absurd hnil ha
  · have hv : read false c cs = .verbatim [c] := if_neg hc
    rw [hv] at h
    exact absurd h.symm (append_ne_singleton hb ha _)

lemma Decodes.after {cs : List Char} {before after : List Piece}
    (h : Decodes lossy false cs (before ++ after)) :
    Decodes lossy false (after.flatMap Piece.source) after := by
  obtain ⟨ha, h⟩ := h
  fun_induction pieces false cs generalizing before with
  | case1 =>
    obtain ⟨-, rfl⟩ := List.append_eq_nil_iff.mp h.symm
    exact .nil
  | case2 c cs ih =>
    have hs := Piece.read_source_append false c cs
    rw [List.forall_mem_cons] at ha
    rw [List.flatMap_cons] at h
    have hrest : Decodes lossy false ((c :: cs).drop (Piece.read false c cs).source.length) _ :=
      ⟨ha.2, rfl⟩
    rcases List.append_eq_append_iff.mp h with ⟨more, rfl, hm⟩ | ⟨part, hp, rfl⟩
    · exact ih ha.2 hm
    · rw [List.flatMap_append, hrest.source]
      by_cases hb : before = []
      · rw [hb, List.nil_append] at hp
        rw [← hp, Piece.flatMap_source_atoms, hs]
        exact .cons hs ha.1 hrest
      · by_cases hn : part = []
        · rw [hn]
          exact hrest
        · obtain ⟨x, tail, rfl, hx, rfl, hsource⟩ := Piece.read_inside hp hb hn
          have hv : Piece.read false x tail = .verbatim [x] := if_neg hx
          rw [hsource] at hrest ⊢
          have hs : (Piece.read false x tail).source ++ tail = x :: tail := by rw [hv]; rfl
          have hd := Decodes.cons hs (by rw [hv]; exact fun _ => trivial) hrest
          rwa [hv] at hd

/-- The value cut at `k`, and the source cut where the table says. What is before the cut decodes to
the value before it, with the table up to there. Without interpolations, what is after it decodes to the
value after it, with a table that counts from the cut. -/
def CutsAt (decoder : Bool → String → Except DecodeError Decoded) (interpolations : Bool)
    (text : String) (d : Decoded) (k : Nat) : Prop :=
  ∃ offset before after front back,
    d.sourceOffset? k = some offset ∧
    Text.cut? text.toList offset = some (before, after) ∧
    Text.cut? d.value.toList k = some (front, back) ∧
    decoder interpolations (String.ofList before) =
      .ok ⟨String.ofList front, d.offsets.take (k + 1)⟩ ∧
    (interpolations = false → ∃ table,
      decoder interpolations (String.ofList after) = .ok ⟨String.ofList back, table⟩ ∧
      d.offsets.drop k = table.map (offset + ·))

lemma Decodes.cutsAt {text : String} {as : List Piece} {k : Nat}
    (h : Decodes lossy interpolations text.toList as)
    (hk : Text.IsBoundary (as.flatMap Piece.value) k) :
    CutsAt (decodePieces lossy) interpolations text (Decoded.ofPieces as) k := by
  obtain ⟨front, back, hv, rfl⟩ := Text.isBoundary_iff.mp hk
  obtain ⟨before, after, rfl, rfl, rfl⟩ := exists_append_of_value h.exists_value hv
  have hsource := h.source
  rw [List.flatMap_append] at hsource
  have hlen : (offsetTable 0 before).length = Text.size (before.flatMap Piece.value) + 1 :=
    length_offsetTable 0 before
  have hlen' : (offsetTable 0 before).dropLast.length = Text.size (before.flatMap Piece.value) := by
    rw [List.length_dropLast, hlen, Nat.add_sub_cancel]
  have htable := offsetTable_append 0 before after
  have htable' := offsetTable_append_tail 0 before after
  rw [Nat.zero_add] at htable htable'
  refine ⟨Text.size (before.flatMap Piece.source), before.flatMap Piece.source,
    after.flatMap Piece.source, before.flatMap Piece.value, after.flatMap Piece.value, ?_, ?_, ?_, ?_, ?_⟩
  · exact sourceOffset?_append before after
  · rw [← hsource, Text.cut?_append]
  · rw [Decoded.ofPieces, String.toList_ofList, hv, Text.cut?_append]
  · rw [decodePieces_eq_ok_iff_decodes, String.toList_ofList]
    refine ⟨before, h.before, ?_⟩
    rw [Decoded.ofPieces, Decoded.ofPieces, htable', List.take_left' hlen]
  · rintro rfl
    refine ⟨offsetTable 0 after, ?_, ?_⟩
    · rw [decodePieces_eq_ok_iff_decodes, String.toList_ofList]
      exact ⟨after, h.after, rfl⟩
    · rw [Decoded.ofPieces, htable, List.drop_left' hlen', offsetTable_eq_map]

lemma cutsAt_of_decodePieces {text : String} {d : Decoded} {k : Nat}
    (h : decodePieces lossy interpolations text = .ok d) (hk : Text.IsBoundary d.value.toList k) :
    CutsAt (decodePieces lossy) interpolations text d k := by
  obtain ⟨as, has, rfl⟩ := decodePieces_eq_ok_iff_decodes.mp h
  rw [Decoded.ofPieces, String.toList_ofList] at hk
  exact has.cutsAt hk

theorem decoded_cuts_at_boundaries (interpolations : Bool) (text : String) :
    (∀ k, Text.IsBoundary (decodeLossy interpolations text).value.toList k →
      CutsAt (fun i t => .ok (decodeLossy i t)) interpolations text
        (decodeLossy interpolations text) k) ∧
    ∀ d, decode interpolations text = .ok d → ∀ k, Text.IsBoundary d.value.toList k →
      CutsAt decode interpolations text d k := by
  have hl : (fun i t => .ok (decodeLossy i t)) = decodePieces true :=
    funext₂ fun i t => (decodePieces_lossy i t).symm
  have hs : decode = decodePieces false := funext₂ decode_eq_decodePieces
  rw [hl, hs]
  refine ⟨fun k hk => ?_, fun d hd k hk => ?_⟩
  · exact cutsAt_of_decodePieces (decodePieces_lossy interpolations text) hk
  · exact cutsAt_of_decodePieces hd hk

theorem decoded_cuts_inside_pieces :
    (Text.IsBoundary (decodeLossy false "\\377\\q!").value.toList 3 ∧
      CutsAt (fun i t => .ok (decodeLossy i t)) false "\\377\\q!" (decodeLossy false "\\377\\q!") 3) ∧
    decode true "\\377$\x7ba" = .ok ⟨"ÿ$\x7ba", [0, 0, 4, 5, 6, 7]⟩ ∧
      Text.IsBoundary "ÿ$\x7ba".toList 3 ∧
      CutsAt decode true "\\377$\x7ba" ⟨"ÿ$\x7ba", [0, 0, 4, 5, 6, 7]⟩ 3 := by
  have hl : Text.cut? (decodeLossy false "\\377\\q!").value.toList 3 = some (['ÿ', '\\'], ['q', '!']) := by
    decide +kernel
  have hs : decode true "\\377$\x7ba" = .ok ⟨"ÿ$\x7ba", [0, 0, 4, 5, 6, 7]⟩ := by decide +kernel
  have hb : Text.cut? "ÿ$\x7ba".toList 3 = some (['ÿ', '$'], ['\x7b', 'a']) := by decide +kernel
  exact ⟨⟨⟨_, hl⟩, (decoded_cuts_at_boundaries false _).1 3 ⟨_, hl⟩⟩, hs, ⟨_, hb⟩,
    (decoded_cuts_at_boundaries true _).2 _ hs 3 ⟨_, hb⟩⟩

end HclLiteral.Escape
