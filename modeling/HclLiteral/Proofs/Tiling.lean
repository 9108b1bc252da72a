import HclLiteral.Proofs.ReaderTokens

namespace HclLiteral

namespace Token

open Pattern Text

lemma length_quoted {bs : List UInt8} (h : (quoted bs).tag = .openString) :
    (quoted bs).length = bs.length + 1 := by
  unfold quoted at h ⊢
  split at h
  · cases h
  · rfl

lemma tag_symbol_ne_openString (b : UInt8) (bs : List UInt8) : (symbol b bs).tag ≠ .openString := by
  have hall : ∀ tag ∈ spelled, tag ≠ .openString := by decide
  unfold symbol
  split
  · rename_i tag hs
    exact hall tag (List.mem_of_find?_eq_some hs)
  · exact nofun

lemma length_of_openString {bs : List UInt8} (h : (read bs).tag = .openString) :
    (read bs).length = bs.length := by
  cases bs with
  | nil => rfl
  | cons b bs =>
    simp only [read] at h ⊢
    split_ifs at h ⊢
    · exact length_quoted h
    · exact absurd h (tag_symbol_ne_openString b bs)

lemma tag_read_ne_endOfText {bs : List UInt8} (ht : IsTail bs) (hn : bs ≠ []) (nesting : Nesting) :
    (nesting.resolve (read bs).tag).1 ≠ .endOfText := by
  intro h
  have hstep := Scanner.next_step (s := ⟨0, bs, nesting⟩) ht
  have hb : (Scanner.mk 0 bs nesting).next.1.tag.boundary = .endOfText := congrArg Tag.boundary h
  rw [hb] at hstep
  cases hstep
  exact hn rfl

lemma isBoundary_read {cs : List Char} {pos : Nat} (h : IsBoundary cs pos) :
    IsBoundary cs (pos + (read ((encode cs).drop pos)).length) := by
  obtain ⟨before, after, rfl, rfl⟩ := isBoundary_iff.mp h
  rw [drop_encode_append]
  cases after with
  | nil => exact h
  | cons c cs =>
    obtain ⟨slice, rest, he, hs, -⟩ := read_cuts c cs
    rw [← hs, he]
    exact isBoundary_iff.mpr ⟨before ++ slice, rest, (List.append_assoc _ _ _).symm, size_append _ _⟩

end Token

lemma Scanner.next_nil (pos : Nat) (nesting : Nesting) :
    (mk pos [] nesting).next = (⟨.endOfText, 0⟩, ⟨pos, [], nesting⟩) := by
  cases nesting <;> rfl

lemma Cursor.advance_ofText {text : String} (h : (Text.bytes text).length < 2 ^ 32) (p : Nat) :
    (ofText text).advance (min p (Text.bytes text).length) = .ok (atOffset text p) := by
  have hf : (ofText text).Fits := ⟨Nat.zero_le _, Nat.le_of_lt_succ h, Text.isTail_bytes text⟩
  refine (hf.advance (Nat.min_le_right p _)).trans ?_
  rw [forward, ofText, Nat.zero_add]
  rfl

namespace Reader

variable {r last : Reader} {token : Token} {tokens : List Token}

inductive Run : Reader → List Token → Reader → Prop
  | nil (r : Reader) : Run r [] r
  | cons {r after last : Reader} {token : Token} {tokens : List Token} :
      r.next = .ok (token, after) → Run after tokens last → Run r (token :: tokens) last

/-- What one token of a text of `size` bytes does: nothing fails, the reader gets on by the length of the
token, and it stays at the end once it is there. -/
structure Tiles (size : Nat) (r : Reader) (token : Token) (after : Reader) : Prop where
  next_eq : r.next = .ok (token, after)
  scanner_next : r.scanner.next = (token, after.scanner)
  covers : r.cursor.pos + token.length = after.cursor.pos
  inside : after.cursor.pos ≤ size
  before_end : r.cursor.pos < size → token.tag ≠ .endOfText ∧ 0 < token.length
  at_end : r.cursor.pos = size → token = ⟨.endOfText, 0⟩ ∧ after = r
  open_string : token.tag = .openString → after.cursor.pos = size

lemma openString_of_resolve {nesting : Nesting} {tag : Tag} (h : (nesting.resolve tag).1 = .openString) :
    tag = .openString := by
  unfold Nesting.resolve at h
  split at h
  · cases h
  · cases h
  · cases h
  · cases h
  · cases h
  · exact h

lemma Valid.tiles (h : r.Valid) :
    r.Tiles r.cursor.source.length r.scanner.next.1 (r.resume r.scanner.next.2) where
  next_eq := h.next_eq
  scanner_next := by rw [scanner_resume]
  covers := rfl
  inside := h.next_valid.fits.inside
  before_end hlt := by
    have hn : r.cursor.rest ≠ [] := by
      apply List.ne_nil_of_length_pos
      rw [Cursor.length_rest]
      omega
    obtain ⟨b, bs, hr⟩ := List.exists_cons_of_ne_nil hn
    refine ⟨Token.tag_read_ne_endOfText h.fits.isTail hn r.nesting, ?_⟩
    change 0 < (Token.read r.cursor.rest).length
    rw [hr]
    exact Token.read_length_pos b bs
  at_end he := by
    have hn : r.cursor.rest = [] := List.drop_eq_nil_of_le he.ge
    rw [scanner, hn, Scanner.next_nil]
    exact ⟨rfl, rfl⟩
  open_string ho := by
    have hl : (Token.read r.cursor.rest).length = r.cursor.rest.length :=
      Token.length_of_openString (openString_of_resolve ho)
    change r.cursor.pos + (Token.read r.cursor.rest).length = _
    rw [hl, Cursor.length_rest]
    exact Nat.add_sub_cancel' h.fits.inside

lemma Run.valid (h : Run r tokens last) (hv : r.Valid) :
    last.Valid ∧ last.cursor.source = r.cursor.source ∧
      r.cursor.pos + Token.totalLength tokens = last.cursor.pos := by
  induction h with
  | nil r => exact ⟨hv, rfl, rfl⟩
  | cons hn _ ih =>
    cases hv.next_eq.symm.trans hn
    obtain ⟨hl, hs, hp⟩ := ih hv.next_valid
    exact ⟨hl, hs, by rw [← hp, Token.totalLength, ← Nat.add_assoc]; rfl⟩

lemma Run.isBoundary {cs : List Char} (h : Run r tokens last) (hv : r.Valid)
    (hs : r.cursor.source = Text.encode cs) (hb : Text.IsBoundary cs r.cursor.pos) :
    Text.IsBoundary cs last.cursor.pos := by
  induction h with
  | nil r => exact hb
  | cons hn _ ih =>
    cases hv.next_eq.symm.trans hn
    refine ih hv.next_valid hs ?_
    have hread := Token.isBoundary_read hb
    rwa [← hs] at hread

lemma Run.split {front back : List Token} (h : Run r (front ++ token :: back) last) :
    ∃ mid after, Run r front mid ∧ mid.next = .ok (token, after) ∧ Run after back last := by
  induction front generalizing r with
  | nil =>
    cases h with
    | cons hn hr => exact ⟨r, _, .nil r, hn, hr⟩
  | cons first front ih =>
    cases h with
    | cons hn hr =>
      obtain ⟨mid, after, hf, hm, hb⟩ := ih hr
      exact ⟨mid, after, .cons hn hf, hm, hb⟩

lemma Valid.run (h : r.Valid) :
    ∃ last, Run r r.scanner.run.1 last ∧ last.cursor.pos = r.cursor.source.length ∧
      ∀ token ∈ r.scanner.run.1, token.tag ≠ .endOfText ∧ 0 < token.length := by
  generalize hs : r.scanner = s
  fun_induction Scanner.run s generalizing r with
  | case1 s hr =>
    subst hs
    refine ⟨r, .nil r, Nat.le_antisymm h.fits.inside ?_, List.forall_mem_nil _⟩
    exact List.drop_eq_nil_iff.mp hr
  | case2 s hr tokens last he ih =>
    subst hs
    obtain ⟨stop, hrun, hpos, hall⟩ := ih h.next_valid (scanner_resume r)
    rw [he] at hrun hall
    have hlt : r.cursor.pos < r.cursor.source.length := Nat.lt_of_not_le (mt List.drop_eq_nil_iff.mpr hr)
    exact ⟨stop, .cons h.next_eq hrun, hpos, List.forall_mem_cons.mpr ⟨h.tiles.before_end hlt, hall⟩⟩

lemma eq_nil_of_totalLength (h : ∀ token ∈ tokens, 0 < token.length)
    (hz : Token.totalLength tokens = 0) : tokens = [] := by
  cases tokens with
  | nil => rfl
  | cons token tokens =>
    have hp := h token List.mem_cons_self
    rw [Token.totalLength] at hz
    omega

lemma Run.eq_nil_of_openString {front back : List Token} (h : Run r (front ++ token :: back) last)
    (hv : r.Valid) (ho : token.tag = .openString) (hb : ∀ t ∈ back, 0 < t.length) : back = [] := by
  obtain ⟨mid, after, hfront, hnext, hback⟩ := h.split
  have hmid := (hfront.valid hv).1
  cases hmid.next_eq.symm.trans hnext
  have hstop := hmid.tiles.open_string ho
  obtain ⟨hlast, hsource, htotal⟩ := hback.valid hmid.next_valid
  have hend : last.cursor.pos ≤ mid.cursor.source.length := hlast.fits.inside.trans_eq (congrArg _ hsource)
  apply eq_nil_of_totalLength hb
  omega

lemma valid_ofCursor {text : String} (h : (Text.bytes text).length < 2 ^ 32) (p : Nat) :
    (ofCursor (.atOffset text p)).Valid where
  fits := ⟨Nat.min_le_right _ _, Nat.le_of_lt_succ h, Text.isTail_bytes text⟩
  counted := nofun

end Reader

theorem tokens_tile_text (text : String) (p : Nat) (h : (Text.bytes text).length < 2 ^ 32) :
    let size := (Text.bytes text).length
    let start := Reader.ofCursor (.atOffset text p)
    let tokens := (Scanner.ofCursor (.atOffset text p)).run.1
    (Cursor.ofText text).advance (min p size) = .ok (.atOffset text p) ∧
    (∀ taken r, start.Run taken r →
      r.cursor.pos ≤ size ∧ (∃ token after, r.Tiles size token after) ∧
        (Text.IsBoundary text.toList (min p size) → Text.IsBoundary text.toList r.cursor.pos)) ∧
    (∃ last, start.Run tokens last ∧ last.cursor.pos = size ∧ last.next = .ok (⟨.endOfText, 0⟩, last)) ∧
    (∀ token ∈ tokens, token.tag ≠ .endOfText ∧ 0 < token.length) ∧
    Token.totalLength tokens = size - min p size ∧
    ∀ front token back, tokens = front ++ token :: back → token.tag = .openString → back = [] := by
  intro size start tokens
  have hv : start.Valid := Reader.valid_ofCursor h p
  obtain ⟨last, hrun, hpos, hall⟩ := hv.run
  obtain ⟨hlast, hsource, htotal⟩ := hrun.valid hv
  refine ⟨Cursor.advance_ofText h p, ?_, ⟨last, hrun, hpos, ?_⟩, hall, ?_, ?_⟩
  · intro taken r hr
    obtain ⟨hr', hs, -⟩ := hr.valid hv
    have hsize : r.cursor.source.length = size := congrArg List.length hs
    exact ⟨hsize ▸ hr'.fits.inside, ⟨_, _, hsize ▸ hr'.tiles⟩, hr.isBoundary hv rfl⟩
  · obtain ⟨ht, ha⟩ := hlast.tiles.at_end (by rw [hsource, hpos])
    have hn := hlast.next_eq
    rwa [ht, ha] at hn
  · have hstart : min p size + Token.totalLength tokens = size := htotal.trans hpos
    omega
  · intro front token back hsplit ho
    rw [show start.scanner.run.1 = front ++ token :: back from hsplit] at hrun hall
    apply hrun.eq_nil_of_openString hv ho
    intro t ht
    exact (hall t (List.mem_append_right _ (List.mem_cons_of_mem _ ht))).2

theorem tokens_tile_from_inside_character :
    (Text.bytes "é\x00 \"$\x7b").length < 2 ^ 32 ∧
      ∃ last, (Reader.ofCursor (.atOffset "é\x00 \"$\x7b" 1)).Run
          [⟨.invalid, 1⟩, ⟨.nul, 1⟩, ⟨.blank, 1⟩, ⟨.openString, 3⟩] last ∧
        last.cursor.pos = 7 ∧ last.next = .ok (⟨.endOfText, 0⟩, last) := by
  have hl : (Text.bytes "é\x00 \"$\x7b").length = 7 := by decide
  have ht : (Scanner.ofCursor (.atOffset "é\x00 \"$\x7b" 1)).run.1 =
      [⟨.invalid, 1⟩, ⟨.nul, 1⟩, ⟨.blank, 1⟩, ⟨.openString, 3⟩] := by decide +kernel
  have hlt : (Text.bytes "é\x00 \"$\x7b").length < 2 ^ 32 := by
    rw [hl]
    decide
  obtain ⟨-, -, ⟨last, hrun, hpos, hnext⟩, -⟩ := tokens_tile_text _ 1 hlt
  exact ⟨hlt, last, ht ▸ hrun, hl ▸ hpos, hnext⟩

end HclLiteral
