import HclLiteral.Proofs.NumberMatch
import HclLiteral.Proofs.QuotedGrammar
import HclLiteral.Token.Scanner

namespace HclLiteral

open Pattern Text Byte

lemma Quoted.length?_eq_some_iff {cs : List Char} {n : Nat} :
    length? (encode cs) = some n ↔
      ∃ text rest, cs = text ++ '"' :: rest ∧ Grammar.StringText text ∧ size text + 1 = n := by
  rw [length?, run_eq_some_iff]
  constructor
  · rintro ⟨taken, rest, rfl, rfl, text, after, rfl, ht, rfl⟩
    refine ⟨text, rest, by rw [List.append_assoc]; rfl, ht, ?_⟩
    rw [size_append]
    rfl
  · rintro ⟨text, rest, rfl, ht, rfl⟩
    refine ⟨text ++ ['"'], rest, by rw [List.append_assoc]; rfl, ?_, text, [], rfl, ht, rfl⟩
    rw [size_append]
    rfl

lemma Quoted.length?_of_quoted {ds cs : List Char} (hd : ds ∈ Pattern.quoted) (h : ds <+: '"' :: cs) :
    ∃ n, length? (encode cs) = some n ∧ size ds = n + 1 := by
  obtain ⟨text, ht, rfl⟩ := hd
  obtain ⟨rest, hr⟩ := h
  rw [List.cons_append, List.cons_append, List.append_assoc] at hr
  obtain ⟨-, rfl⟩ := List.cons.inj hr
  refine ⟨size text + 1, length?_eq_some_iff.mpr ⟨text, rest, rfl, ht, rfl⟩, ?_⟩
  rw [List.cons_append, size_cons, size_append, Nat.add_comm]
  rfl

namespace Token

variable {tag : Tag} {c : Char} {cs : List Char} {n : Nat}

def Cuts (token : Token) (cs : List Char) : Prop :=
  ∃ slice rest, cs = slice ++ rest ∧ size slice = token.length ∧ token.tag.Takes slice rest

lemma cuts_of_longest (ht : tag ∈ [.blank, .name, .number]) (h : LongestSize tag.pattern cs n) :
    Cuts ⟨tag, n⟩ cs := by
  obtain ⟨slice, rest, rfl, hs, hl⟩ := h
  exact ⟨slice, rest, rfl, hs, .longest ht hl⟩

lemma blank_cuts (hc : IsBlank c) (cs : List Char) :
    Cuts ⟨.blank, ((encode cs).takeWhile isBlank).length + 1⟩ (c :: cs) := by
  have he := encodes_isBlank.encode_cons hc cs
  have hw : ((encode (c :: cs)).takeWhile isBlank).length =
      ((encode cs).takeWhile isBlank).length + 1 := by
    rw [he, List.takeWhile_cons_of_pos ((encodes_isBlank.head he).mpr hc), List.length_cons]
  apply cuts_of_longest (by decide)
  rcases measures_run encodes_isBlank (c :: cs) with ⟨-, hl⟩ | ⟨hz, -⟩
  · exact hw ▸ hl
  · cases hw.symm.trans hz

lemma name_cuts (hc : IsNameStart c) (cs : List Char) :
    Cuts ⟨.name, ((encode cs).takeWhile isNameContinue).length + 1⟩ (c :: cs) := by
  apply cuts_of_longest (by decide)
  rw [Nat.add_comm]
  exact ((measures_run encodes_isNameContinue).optional cs).cons encodes_isNameStart hc

lemma quoted_cuts (cs : List Char) : Cuts (quoted (encode cs)) ('"' :: cs) := by
  rw [quoted]
  cases h : Quoted.length? (encode cs) with
  | none =>
    refine ⟨'"' :: cs, [], (List.append_nil _).symm, ?_, .openString ?_⟩
    · rw [size_cons, length_encode, Nat.add_comm]
      rfl
    · intro ds hd hp
      obtain ⟨n, hn, -⟩ := Quoted.length?_of_quoted hd hp
      cases h.symm.trans hn
  | some n =>
    obtain ⟨text, rest, rfl, ht, rfl⟩ := Quoted.length?_eq_some_iff.mp h
    have hq : '"' :: text ++ ['"'] ∈ Pattern.quoted := ⟨text, ht, rfl⟩
    have hs : '"' :: (text ++ '"' :: rest) = '"' :: text ++ ['"'] ++ rest := by simp
    obtain ⟨n, hn, hsize⟩ := Quoted.length?_of_quoted hq (hs ▸ List.prefix_append _ rest)
    obtain rfl := Option.some.inj (h.symm.trans hn)
    refine ⟨'"' :: text ++ ['"'], rest, hs, hsize, .string hq ?_⟩
    intro ds hd hp
    -- two strings of the grammar in front of one text are both read, so they have one size
    obtain ⟨m, hm, hm'⟩ := Quoted.length?_of_quoted hd (hs ▸ hp)
    obtain rfl := Option.some.inj (h.symm.trans hm)
    obtain ⟨more, hmore⟩ := hp
    exact (append_inj_of_size hmore (hm'.trans hsize.symm)).1

lemma encode_prefix_iff {ds : List Char} (hd : ∀ c ∈ ds, c.toNat < 128) (cs : List Char) :
    encode ds <+: encode cs ↔ ds <+: cs := by
  induction ds generalizing cs with
  | nil => exact iff_of_true List.nil_prefix List.nil_prefix
  | cons d ds ih =>
    have hn := hd d List.mem_cons_self
    rw [encode_cons_narrow hn]
    cases cs with
    | nil => simp
    | cons c cs =>
      obtain ⟨b, bs, he⟩ := exists_encode_cons c cs
      rw [he, List.cons_prefix_cons, List.cons_prefix_cons, eq_comm, (encodes_eq hn).head he, eq_comm]
      apply and_congr_right
      rintro rfl
      rw [encode_cons_narrow hn] at he
      rw [← (List.cons.inj he).2]
      exact ih (fun c hc => hd c (List.mem_cons_of_mem _ hc)) cs

lemma spelling_class {ds : List Char} (ht : tag ∈ spelled) (hs : tag.spelling? = some ds) :
    ∀ c ∈ ds, c.toNat < 128 ∧ ¬ IsBlank c := by
  have hall : ∀ tag ∈ spelled, ∀ ds ∈ tag.spelling?,
      ds.all fun c => c.toNat < 128 ∧ ¬ IsBlank c := by decide
  intro c hc
  exact of_decide_eq_true (List.all_eq_true.mp (hall tag ht ds hs) c hc)

lemma bytes_of_spelling {ds : List Char} (h : tag.spelling? = some ds) : tag.bytes = encode ds := by
  rw [Tag.bytes, h]
  rfl

lemma exists_spelling : ∀ tag ∈ spelled, ∃ ds, tag.spelling? = some ds := by
  have hall : ∀ tag ∈ spelled, tag.spelling?.isSome := by decide
  intro tag ht
  exact Option.isSome_iff_exists.mp (hall tag ht)

lemma spelled?_longer (bs : List UInt8) :
    spelled? (0x21 :: 0x3D :: bs) = some .notEqual ∧ spelled? (0x3C :: 0x3D :: bs) = some .lessEqual ∧
      spelled? (0x3E :: 0x3D :: bs) = some .greaterEqual ∧
      spelled? (0x24 :: 0x7B :: bs) = some .interpolationStart :=
  ⟨rfl, rfl, rfl, rfl⟩

lemma spelled_cuts (h : spelled? (encode cs) = some tag) : Cuts ⟨tag, tag.bytes.length⟩ cs := by
  have ht := List.mem_of_find?_eq_some h
  obtain ⟨slice, hs⟩ := exists_spelling tag ht
  have hp := List.find?_some h
  rw [List.isPrefixOf_iff_prefix, bytes_of_spelling hs,
    encode_prefix_iff fun c hc => (spelling_class ht hs c hc).1] at hp
  obtain ⟨rest, rfl⟩ := hp
  refine ⟨slice, rest, rfl, ?_, .spelled hs ?_ ?_⟩
  · rw [bytes_of_spelling hs, length_encode]
  · intro hm hr
    obtain ⟨tail, rfl⟩ := List.head?_eq_some_iff.mp hr
    obtain ⟨hn, hl, hg, -⟩ := spelled?_longer (encode tail)
    simp only [List.mem_cons, List.not_mem_nil, or_false] at hm
    rcases hm with rfl | rfl | rfl
    · cases hs
      cases h.symm.trans hn
    · cases hs
      cases h.symm.trans hl
    · cases hs
      cases h.symm.trans hg
  · rintro rfl hr
    obtain ⟨tail, rfl⟩ := List.head?_eq_some_iff.mp hr
    cases hs
    cases h.symm.trans (spelled?_longer (encode tail)).2.2.2

lemma mem_spelled {ds : List Char} (h : tag.spelling? = some ds) :
    ∃ other ∈ spelled, other.spelling? = some ds := by
  cases tag with
  | name | number | string | blank | invalid | openString | nul | endOfText => cases h
  | interpolationEnd => exact ⟨.rightBrace, by decide, h⟩
  | _ => exact ⟨_, by decide, h⟩

lemma unmatched_spelling {ds : List Char} (h : spelled? (encode cs) = none)
    (hs : tag.spelling? = some ds) : ¬ ds <+: cs := by
  intro hp
  obtain ⟨other, ho, hs⟩ := mem_spelled hs
  apply List.find?_eq_none.mp h other ho
  rw [List.isPrefixOf_iff_prefix, bytes_of_spelling hs,
    encode_prefix_iff fun c hc => (spelling_class ho hs c hc).1]
  exact hp

lemma charWidth_head {b : UInt8} {bs : List UInt8} (he : encode (c :: cs) = b :: bs) :
    charWidth b = c.utf8Size := by
  rw [← String.length_utf8EncodeChar]
  rcases Nat.lt_or_ge c.toNat 128 with hc | hc
  · rw [encode_cons_narrow hc] at he
    rw [encodeChar_narrow hc, ← (List.cons.inj he).1]
    apply charWidth_of_lt
    rw [UInt8.lt_iff_toNat_lt, UInt8.toNat_ofNat', Nat.mod_eq_of_lt (by omega)]
    exact Nat.lt_trans hc (by decide)
  · obtain ⟨lead, tail, hl, hw, -, -⟩ := encodeChar_wide hc
    rw [encode_cons, hl, List.cons_append] at he
    rw [← (List.cons.inj he).1, hw, hl, List.length_cons]

lemma invalid_cuts {b : UInt8} {bs : List UInt8} (he : encode (c :: cs) = b :: bs)
    (hn : c ≠ '\x00') (hb : ¬ IsBlank c) (hs : ¬ IsNameStart c) (hd : ¬ IsDigit c) (hq : c ≠ '"')
    (h : spelled? (b :: bs) = none) :
    Cuts ⟨.invalid, ((b :: bs).take (charWidth b)).length⟩ (c :: cs) := by
  have hlen : ((b :: bs).take (charWidth b)).length = c.utf8Size := by
    rw [List.length_take, charWidth_head he, ← he, length_encode, size_cons]
    exact Nat.min_eq_left (Nat.le_add_right _ _)
  refine ⟨[c], cs, rfl, hlen.symm, .invalid ?_⟩
  intro tag ht
  cases tag with
  | name => exact (starts_one.mul _).unmatched (by simpa using hs)
  | number => exact starts_number.unmatched (by simpa using hd)
  | string => exact starts_quoted.unmatched (by simpa using hq)
  | blank => exact starts_run.unmatched (by simpa using hb)
  | nul => exact starts_one.unmatched (by simpa using hn)
  | openString =>
    have hstart : Starts (· = '"') (Tag.pattern .openString) := fun _ h => ⟨'"', h, rfl⟩
    exact hstart.unmatched (by simpa using hq)
  | invalid => exact absurd rfl ht
  | endOfText => exact fun ds hd => absurd hd (Language.notMem_zero ds)
  | _ => exact fun ds hd => unmatched_spelling (he ▸ h) hd

theorem read_cuts (c : Char) (cs : List Char) : (read (encode (c :: cs))).Cuts (c :: cs) := by
  obtain ⟨b, bs, he⟩ := exists_encode_cons c cs
  have hnul : b = 0 ↔ c = '\x00' := (encodes_eq (c := '\x00') (by decide)).head he
  have hquote := encodes_eq (c := '"') (by decide)
  rw [he, read]
  split
  · rename_i h
    rw [hnul.mp h]
    exact ⟨['\x00'], cs, rfl, rfl, .nul⟩
  rename_i hn
  split
  · rename_i h
    have hc := (encodes_isBlank.head he).mp h
    rw [encodes_isBlank.tail he hc]
    exact blank_cuts hc cs
  rename_i hb
  split
  · rename_i h
    have hc := (encodes_isNameStart.head he).mp h
    rw [encodes_isNameStart.tail he hc]
    exact name_cuts hc cs
  rename_i hs
  split
  · rename_i h
    rw [← he]
    exact cuts_of_longest (by decide) (Number.length_longest ((encodes_isDigit.head he).mp h) cs)
  rename_i hd
  split
  · rename_i h
    obtain rfl := (hquote.head he).mp h
    rw [hquote.tail he rfl]
    exact quoted_cuts cs
  rename_i hq
  split
  · rename_i tag h
    exact spelled_cuts (he ▸ h)
  · rename_i h
    exact invalid_cuts he (mt hnul.mpr hn) (mt (encodes_isBlank.head he).mpr hb)
      (mt (encodes_isNameStart.head he).mpr hs) (mt (encodes_isDigit.head he).mpr hd)
      (mt (hquote.head he).mpr hq) h

end Token

lemma Tag.Takes.interpolationEnd {slice rest : List Char} (h : Takes .rightBrace slice rest) :
    Takes .interpolationEnd slice rest := by
  cases h with
  | spelled hs => exact .spelled hs nofun nofun
  | longest hm => exact absurd hm (by decide)

lemma Nesting.resolve_takes (nesting : Nesting) {tag : Tag} {slice rest : List Char}
    (h : tag.Takes slice rest) : (nesting.resolve tag).1.Takes slice rest := by
  unfold resolve
  split
  · exact h
  · exact h
  · exact h
  · exact h.interpolationEnd
  · exact h.interpolationEnd
  · exact h

inductive Token.Tiles : List Char → List Token → Prop
  | nil : Tiles [] []
  | cons {slice rest : List Char} {token : Token} {tokens : List Token} :
      size slice = token.length → token.tag.Takes slice rest → Tiles rest tokens →
      Tiles (slice ++ rest) (token :: tokens)

lemma Scanner.run_tiles (s : Scanner) {cs : List Char} (h : s.rest = encode cs) :
    Token.Tiles cs s.run.1 := by
  fun_induction run s generalizing cs with
  | case1 s hr =>
    have hs : size cs = 0 := by rw [← length_encode, ← h, hr, List.length_nil]
    rw [eq_nil_of_size_eq_zero hs]
    exact .nil
  | case2 s hr tokens last he ih =>
    cases cs with
    | nil => exact absurd h hr
    | cons c cs =>
      obtain ⟨slice, rest, hcs, hsize, htakes⟩ := Token.read_cuts c cs
      rw [← h] at hsize htakes
      rw [hcs]
      refine .cons hsize (s.nesting.resolve_takes htakes) ?_
      have hrest : s.next.2.rest = encode rest := by
        rw [next, ← hsize, h, hcs]
        exact drop_encode_append slice rest
      have ht := ih hrest
      rwa [he] at ht

namespace Tag.Takes

variable {tag : Tag} {slice rest : List Char}

lemma eq_spelling {ds : List Char} (h : tag.Takes slice rest) (hs : tag.spelling? = some ds) :
    slice = ds := by
  cases h with
  | spelled h => exact Option.some.inj (h.symm.trans hs)
  | longest hm =>
    have hall : ∀ tag ∈ [Tag.blank, .name, .number], tag.spelling? = none := by decide
    cases (hall tag hm).symm.trans hs
  | _ => cases hs

lemma longest_blank (h : Takes .blank slice rest) : Longest (run IsBlank) slice rest := by
  cases h with
  | spelled hs => cases hs
  | longest _ hl => exact hl

lemma last_not_blank (h : tag.Takes slice rest) {d : Char} (hr : d ∈ rest.head?) (hd : IsBlank d) :
    ∀ c ∈ slice.getLast?, ¬ IsBlank c := by
  intro last hlast
  have hmem := List.mem_of_getLast? hlast
  cases h with
  | spelled hs =>
    obtain ⟨other, ho, hs⟩ := Token.mem_spelled hs
    exact (Token.spelling_class ho hs last hmem).2
  | longest hm hl =>
    simp only [List.mem_cons, List.not_mem_nil, or_false] at hm
    rcases hm with rfl | rfl | rfl
    · exact absurd hd (Longest.head_not hl d hr)
    · exact name_not_blank slice hl.1 last hmem
    · exact number_not_blank slice hl.1 last hmem
  | nul =>
    cases hlast
    decide
  | string hq =>
    obtain ⟨text, -, rfl⟩ := hq
    rw [List.getLast?_concat] at hlast
    cases hlast
    decide
  | openString => cases hr
  | @invalid c _ hu =>
    cases hlast
    intro hb
    have hrun : [c] ∈ run IsBlank := ⟨by simp, by simpa using hb⟩
    exact hu .blank (by decide) [c] hrun (List.prefix_append [c] rest)

end Tag.Takes

def Token.totalLength : List Token → Nat
  | [] => 0
  | token :: tokens => token.length + totalLength tokens

lemma Token.Tiles.split {cs : List Char} {front back : List Token} {token : Token}
    (h : Tiles cs (front ++ token :: back)) :
    ∃ before slice rest, cs = before ++ slice ++ rest ∧ size before = totalLength front ∧
      size slice = token.length ∧ token.tag.Takes slice rest ∧
      (token.tag = .blank → ∀ c ∈ before.getLast?, ¬ IsBlank c) := by
  induction front generalizing cs with
  | nil =>
    cases h with
    | @cons slice rest _ _ hs ht _ => exact ⟨[], slice, rest, rfl, rfl, hs, ht, fun _ => nofun⟩
  | cons first front ih =>
    cases h with
    | @cons taken after _ _ hs ht hrest =>
      obtain ⟨before, slice, rest, rfl, hb, hs', ht', hblank⟩ := ih hrest
      refine ⟨taken ++ before, slice, rest, by simp, ?_, hs', ht', ?_⟩
      · rw [size_append, hs, hb, totalLength]
      · intro htag
        -- the character before the blanks is the last one of the token just before them
        by_cases hn : before = []
        · subst hn
          rw [htag] at ht'
          obtain ⟨d, hd, hdb⟩ := starts_run slice ht'.longest_blank.1
          rw [List.append_nil]
          exact ht.last_not_blank (List.mem_head?_append_of_mem_head? hd) hdb
        · rw [List.getLast?_append_of_ne_nil taken hn]
          exact hblank htag

/-- Each token is the longest match of its tag, and a run of blanks does not start after a blank. -/
theorem tokens_take_longest (text : String) (front back : List Token) (token : Token)
    (h : tokens text = front ++ token :: back) :
    ∃ before slice rest, text.toList = before ++ slice ++ rest ∧
      size before = Token.totalLength front ∧ size slice = token.length ∧
      token.tag.Takes slice rest ∧
      (∀ lexeme, token.tag.lexeme? = some lexeme → String.ofList slice = lexeme) ∧
      (token.tag = .blank → ∀ c ∈ before.getLast?, ¬ IsBlank c) := by
  have ht : Token.Tiles text.toList (tokens text) := Scanner.run_tiles _ rfl
  rw [h] at ht
  obtain ⟨before, slice, rest, he, hb, hs, ht, hblank⟩ := ht.split
  refine ⟨before, slice, rest, he, hb, hs, ht, ?_, hblank⟩
  intro lexeme hl
  obtain ⟨ds, hds, rfl⟩ := Option.map_eq_some_iff.mp hl
  rw [ht.eq_spelling hds]

theorem hexadecimal_taken_before_point :
    tokens "é 0x1F.5e+!=" = [⟨.invalid, 2⟩, ⟨.blank, 1⟩] ++ ⟨.number, 4⟩ ::
      [⟨.dot, 1⟩, ⟨.number, 1⟩, ⟨.name, 1⟩, ⟨.plus, 1⟩, ⟨.notEqual, 2⟩] ∧
    ∃ before slice rest, "é 0x1F.5e+!=".toList = before ++ slice ++ rest ∧
      size before = 3 ∧ size slice = 4 ∧ Tag.Takes .number slice rest := by
  have h : tokens "é 0x1F.5e+!=" = [⟨.invalid, 2⟩, ⟨.blank, 1⟩] ++ ⟨.number, 4⟩ ::
      [⟨.dot, 1⟩, ⟨.number, 1⟩, ⟨.name, 1⟩, ⟨.plus, 1⟩, ⟨.notEqual, 2⟩] := by decide +kernel
  obtain ⟨before, slice, rest, he, hb, hs, ht, -⟩ := tokens_take_longest _ _ _ _ h
  exact ⟨h, before, slice, rest, he, hb, hs, ht⟩

end HclLiteral
