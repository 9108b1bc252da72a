import HclLiteral.Escape.Pass
import HclLiteral.Proofs.Decode
import HclLiteral.Proofs.ReaderMoves

namespace HclLiteral

namespace Text

variable {text before rest : List Char} {c : Char}

lemma eq_of_mem_encodeChar {d : Char} (hd : d.toNat < 128)
    (h : UInt8.ofNat d.toNat ∈ String.utf8EncodeChar c) : c = d := by
  have hv : (UInt8.ofNat d.toNat).toNat = d.toNat := by
    rw [UInt8.toNat_ofNat', Nat.mod_eq_of_lt (by omega)]
  rcases Nat.lt_or_ge c.toNat 128 with hc | hc
  · rw [encodeChar_narrow hc, List.mem_singleton, ← UInt8.toNat_inj, hv, UInt8.toNat_ofNat',
      Nat.mod_eq_of_lt (by omega)] at h
    exact Char.toNat_inj.mp h.symm
  · obtain ⟨lead, tail, he, -, hl, ht⟩ := encodeChar_wide hc
    have hhigh : 0x80 ≤ UInt8.ofNat d.toNat := by
      rw [he, List.mem_cons] at h
      rcases h with h | h
      · exact h ▸ UInt8.le_trans (by decide) hl
      · exact (ht _ h).1
    have := UInt8.le_iff_toNat_le.mp hhigh
    rw [hv] at this
    exact absurd this (Nat.not_le.mpr hd)

lemma byte_of_char (ht : text = before ++ c :: rest) {i : Nat} (hi : i < c.utf8Size) :
    ∃ b, (encode text)[size before + i]? = some b ∧
      ∀ d : Char, d.toNat < 128 → (b = UInt8.ofNat d.toNat ↔ c = d) := by
  have hlt : i < (String.utf8EncodeChar c).length := by rwa [String.length_utf8EncodeChar]
  refine ⟨(String.utf8EncodeChar c)[i], ?_, fun d hd => ⟨fun hb => ?_, ?_⟩⟩
  · rw [ht, encode_append, ← length_encode, List.getElem?_append_right (Nat.le_add_right _ _),
      Nat.add_sub_cancel_left, encode_cons, List.getElem?_append_left hlt, List.getElem?_eq_getElem hlt]
  · exact eq_of_mem_encodeChar hd (hb ▸ List.getElem_mem hlt)
  · rintro rfl
    simp [encodeChar_narrow hd]

lemma opens_at (ht : text = before ++ c :: rest) :
    (c = '$' && (encode text)[size before + 1]? == some 0x7B) = Braces.opens (c :: rest) := by
  rw [Bool.eq_iff_iff, Escape.Piece.opens_cons_iff, Bool.and_eq_true, decide_eq_true_iff, beq_iff_eq]
  apply and_congr_right
  rintro rfl
  have hsource : text = before ++ ['$'] ++ rest := ht.trans (List.append_cons _ _ _)
  have hpos : size before + 1 = size (before ++ ['$']) := (size_append before ['$']).symm
  apply (getElem?_encode_eq_iff (c := '{') (by decide)).trans
  constructor
  · rintro ⟨front, back, hf, hs⟩
    rw [hsource] at hf
    rw [(append_inj_of_size hf (hpos.symm.trans hs.symm)).2, List.head?_cons]
  · intro hh
    obtain ⟨back, rfl⟩ := List.head?_eq_some_iff.mp hh
    exact ⟨_, back, hsource, hpos.symm⟩

end Text

namespace Byte

open Text

lemma encodes_isOctalDigit :
    Encodes (fun b => isOctalDigit b) (fun c => Numeral.isOctalDigit c) where
  narrow c h := by
    obtain ⟨v, hv, hd⟩ := Numeral.isOctalDigit_iff.mp h
    exact Numeral.of_isDigit (P := fun c _ => c.toNat < 128) (by decide) hv hd
  agrees := by decide
  high := by decide

lemma encodes_hexDigit :
    Encodes (fun b => Numeral.isHexDigit (Char.ofNat b.toNat)) (fun c => Numeral.isHexDigit c) where
  narrow c h := by
    obtain ⟨v, hv, hd⟩ := Numeral.isHexDigit_iff.mp h
    exact Numeral.of_isDigit (P := fun c _ => c.toNat < 128) (by decide) hv hd
  agrees := by decide
  high := by decide

lemma encodes_isSign : Encodes (fun b => b = 0x2B ∨ b = 0x2D) (fun c => Escape.isSign c) where
  narrow c h := by
    rw [Escape.isSign, Bool.or_eq_true, beq_iff_eq, beq_iff_eq] at h
    rcases h with rfl | rfl
    · decide
    · decide
  agrees := by decide
  high := by decide

variable {p : UInt8 → Bool} {q : Char → Bool}

lemma Encodes.takeWhile_take (h : Encodes (fun b => p b) (fun c => q c)) (most : Nat) (cs : List Char) :
    ((encode cs).take most).takeWhile p = encode ((cs.take most).takeWhile q) := by
  induction cs generalizing most with
  | nil => simp
  | cons c cs ih =>
    cases most with
    | zero => simp
    | succ most =>
      by_cases hc : q c = true
      · have he := h.encode_cons hc cs
        rw [he, List.take_succ_cons, List.takeWhile_cons_of_pos ((h.head he).mpr hc), ih,
          List.take_succ_cons, List.takeWhile_cons_of_pos hc, h.encode_cons hc]
      · obtain ⟨b, bs, he⟩ := exists_encode_cons c cs
        rw [he, List.take_succ_cons, List.takeWhile_cons_of_neg fun hb => hc ((h.head he).mp hb),
          List.take_succ_cons, List.takeWhile_cons_of_neg hc, encode_nil]

lemma Encodes.size_eq_length {q : Char → Prop} {p : UInt8 → Prop} (h : Encodes p q) {cs : List Char}
    (hc : ∀ c ∈ cs, q c) : size cs = cs.length := by
  induction cs with
  | nil => rfl
  | cons c cs ih =>
    rw [List.forall_mem_cons] at hc
    rw [size_cons, h.utf8Size_eq_one hc.1, ih hc.2, List.length_cons, Nat.add_comm]

end Byte

namespace Numeral

lemma shiftIn_eq {bits size n digit : Nat} (hd : digit < Nat.pow 2 bits)
    (hn : (n + 1) * Nat.pow 2 bits ≤ size) : shiftIn bits size n digit = n * Nat.pow 2 bits + digit := by
  have hlt : n <<< bits < size := by
    rw [Nat.shiftLeft_eq]
    exact (Nat.mul_lt_mul_of_pos_right n.lt_succ_self (Nat.pow_pos Nat.two_pos)).trans_le hn
  rw [shiftIn, Nat.mod_eq_of_lt hlt, ← Nat.shiftLeft_add_eq_or_of_lt hd, Nat.shiftLeft_eq]
  rfl

lemma digitValue_lt_eight {c : Char} (h : isOctalDigit c = true) : digitValue c < 8 := by
  obtain ⟨v, hv, hd⟩ := isOctalDigit_iff.mp h
  rwa [digitValue_of_isDigit (hv.trans (by decide)) hd]

lemma digitValue_lt_sixteen {c : Char} (h : isHexDigit c = true) : digitValue c < 16 := by
  obtain ⟨v, hv, hd⟩ := isHexDigit_iff.mp h
  rwa [digitValue_of_isDigit hv hd]

end Numeral

namespace Escape

open Text Numeral

variable {letter : Char} {cs : List Char} {pos : Nat}

lemma pushOctal_eq {c : Char} (hc : isOctalDigit c = true) {n : Nat} (hn : (n + 1) * 8 ≤ 256) :
    pushOctal n (UInt8.ofNat c.toNat) = .ok (n * 8 + digitValue c) := by
  have hsub : Offset.sub (UInt8.ofNat c.toNat).toNat 0x30 = .ok (digitValue c) := by
    obtain ⟨v, hv, hd⟩ := isOctalDigit_iff.mp hc
    exact of_isDigit (P := fun c _ => Offset.sub (UInt8.ofNat c.toNat).toNat 0x30 = .ok (digitValue c))
      (by decide) hv hd
  have hshift : shiftIn 3 256 n (digitValue c) = n * 8 + digitValue c :=
    shiftIn_eq (digitValue_lt_eight hc) hn
  rw [pushOctal, hsub, ok_bind, hshift]
  rfl

lemma foldlM_pushOctal {digits : List Char} (hd : ∀ c ∈ digits, isOctalDigit c = true) {n : Nat}
    (hn : (n + 1) * Nat.pow 8 digits.length ≤ 256) :
    (encode digits).foldlM pushOctal n = .ok (digits.foldl (fun n c => n * 8 + digitValue c) n) := by
  induction digits generalizing n with
  | nil => rfl
  | cons c digits ih =>
    rw [List.forall_mem_cons] at hd
    have hroom : (n + 1) * 8 * Nat.pow 8 digits.length ≤ 256 := by
      rw [Nat.mul_assoc]
      rwa [List.length_cons, Nat.pow_eq, Nat.pow_succ'] at hn
    have hpos : 0 < Nat.pow 8 digits.length := Nat.pow_pos (by decide)
    have hstep := pushOctal_eq hd.1 ((Nat.le_mul_of_pos_right _ hpos).trans hroom)
    rw [Byte.encodes_isOctalDigit.encode_cons hd.1, List.foldlM_cons, hstep, ok_bind]
    apply ih hd.2
    have hc := digitValue_lt_eight hd.1
    exact (Nat.mul_le_mul_right _ (by omega)).trans hroom

lemma exists_octalDigits (hl : isOctalDigit letter = true) (cs : List Char) :
    ∃ more rest, octalDigits (letter :: cs) = letter :: more ∧ letter :: cs = letter :: more ++ rest ∧
      (∀ c ∈ more, isOctalDigit c = true) ∧ (digitValue letter + 1) * Nat.pow 8 more.length ≤ 256 := by
  have key (most : Nat) (hm : (digitValue letter + 1) * Nat.pow 8 most ≤ 256) :
      ∃ more rest, ((letter :: cs).take (most + 1)).takeWhile isOctalDigit = letter :: more ∧
        letter :: cs = letter :: more ++ rest ∧ (∀ c ∈ more, isOctalDigit c = true) ∧
        (digitValue letter + 1) * Nat.pow 8 more.length ≤ 256 := by
    obtain ⟨rest, hr, -⟩ := exists_takeWhile_take isOctalDigit cs most
    refine ⟨(cs.take most).takeWhile isOctalDigit, rest, ?_, congrArg (letter :: ·) hr, ?_, ?_⟩
    · rw [List.take_succ_cons, List.takeWhile_cons_of_pos hl]
    · intro c hc
      exact List.mem_takeWhile_imp hc
    · have hlen : ((cs.take most).takeWhile isOctalDigit).length ≤ most :=
        (List.takeWhile_prefix _).length_le.trans (List.length_take_le _ _)
      exact (Nat.mul_le_mul_left _ (Nat.pow_le_pow_right (by decide) hlen)).trans hm
  by_cases h3 : letter ≤ '3'
  · have hthree : digitValue letter ≤ 3 := by
      obtain ⟨v, hv, hd⟩ := isOctalDigit_iff.mp hl
      exact of_isDigit (P := fun c _ => c ≤ '3' → digitValue c ≤ 3) (by decide) hv hd h3
    rw [octalDigits, List.headD_cons, if_pos h3]
    exact key 2 (by change _ * 64 ≤ _; omega)
  · have height := digitValue_lt_eight hl
    rw [octalDigits, List.headD_cons, if_neg h3]
    exact key 1 (by change _ * 8 ≤ _; omega)

lemma octalAt_eq (hl : isOctalDigit letter = true) (hpos : pos + 1 + size (letter :: cs) ≤ Offset.max) :
    octalAt (encode (letter :: cs)) pos =
      .ok (Char.ofNat (value 8 (octalDigits (letter :: cs))),
        pos + 1 + size (octalDigits (letter :: cs))) := by
  obtain ⟨more, rest, hdigits, hsplit, hmore, hroom⟩ := exists_octalDigits hl cs
  have hfirst : (encode (letter :: cs))[0]? = some (UInt8.ofNat letter.toNat) := by
    rw [Byte.encodes_isOctalDigit.encode_cons hl]
    rfl
  have hmost : (if UInt8.ofNat letter.toNat ≤ 0x33 then 3 else 2) = if letter ≤ '3' then 3 else 2 := by
    obtain ⟨v, hv, hd⟩ := isOctalDigit_iff.mp hl
    exact of_isDigit (P := fun c _ => (if UInt8.ofNat c.toNat ≤ 0x33 then 3 else 2) = if c ≤ '3' then 3 else 2)
      (by decide) hv hd
  have hrun : ((encode (letter :: cs)).take (if letter ≤ '3' then 3 else 2)).takeWhile Byte.isOctalDigit =
      encode (letter :: more) := hdigits ▸ Byte.encodes_isOctalDigit.takeWhile_take _ _
  have htaken : firstBytes? (encode (letter :: cs)) (size (letter :: more)) = some (encode (letter :: more)) := by
    rw [hsplit, encode_append, ← length_encode, firstBytes?, if_pos (by simp), List.take_left]
  have hvalue : (encode (letter :: more)).foldlM pushOctal 0 = .ok (value 8 (letter :: more)) := by
    rw [Byte.encodes_isOctalDigit.encode_cons hl, List.foldlM_cons, pushOctal_eq hl (by decide), ok_bind]
    apply foldlM_pushOctal hmore
    rwa [Nat.zero_mul, Nat.zero_add]
  have hle : size (letter :: more) ≤ size (letter :: cs) := by
    rw [hsplit, size_append]
    exact Nat.le_add_right _ _
  simp only [octalAt, hfirst, Trap.require_some, ok_bind, hmost, hrun, length_encode, htaken, hvalue,
    Trap.lift_ok, hdigits, Offset.addPositions_eq_ok (show pos + 1 ≤ Offset.max by omega),
    Offset.addPositions_eq_ok (show pos + 1 + size (letter :: more) ≤ Offset.max by omega)]
  rfl

def digitsBehind (letter : Char) (width : Nat) (back : List Char) (left code : Nat) : Except Fault Nat :=
  match (back.take left).find? (!isHexDigit ·) with
  | some digit => .error (.notDigit letter digit)
  | none =>
    if back.length < left then .error (.tooFewDigits letter width)
    else .ok ((back.take left).foldl (fun n c => n * 16 + digitValue c) code)

lemma digitsBehind_cons {c : Char} (hc : isHexDigit c = true) (width : Nat) (back : List Char) (left code : Nat) :
    digitsBehind letter width (c :: back) (left + 1) code =
      digitsBehind letter width back left (code * 16 + digitValue c) := by
  simp [digitsBehind, hc]

lemma byte_behind_digits {front : List Char} (hf : ∀ c ∈ front, isHexDigit c = true) (c : Char) (back : List Char) :
    ∃ b, (encode (front ++ c :: back))[front.length]? = some b ∧
      (isHexDigit (Char.ofNat b.toNat) = true ↔ isHexDigit c = true) ∧
      (isHexDigit c = true → Char.ofNat b.toNat = c) := by
  obtain ⟨b, bs, he⟩ := Byte.exists_encode_cons c back
  refine ⟨b, ?_, Byte.encodes_hexDigit.head he, ?_⟩
  · rw [encode_append, he, ← Byte.encodes_hexDigit.size_eq_length hf, ← length_encode,
      List.getElem?_append_right le_rfl, Nat.sub_self]
    rfl
  · intro hc
    rw [Byte.encodes_hexDigit.encode_cons hc] at he
    have hn := Byte.encodes_hexDigit.narrow c hc
    rw [← (List.cons.inj he).1, UInt8.toNat_ofNat', Nat.mod_eq_of_lt (by omega), Char.ofNat_toNat]

-- The induction is on the digits left; those in front have been read, so the next byte leads a character.
lemma hexCode_eq (hl : letter.utf8Size = 1) (width : Nat) {front back : List Char}
    (hf : ∀ c ∈ front, isHexDigit c = true) (left : Nat) {code : Nat}
    (hroom : (code + 1) * Nat.pow 16 left ≤ Offset.maxPosition + 1)
    (hpos : 1 + size (front ++ back) ≤ Offset.max) :
    hexCode letter width (letter :: front ++ back) (encode (front ++ back)) left front.length code =
      .ok (digitsBehind letter width back left code) := by
  induction left generalizing front back code with
  | zero => rfl
  | succ left ih =>
    have hsize := Byte.encodes_hexDigit.size_eq_length hf
    cases back with
    | nil =>
      have hend : (encode (front ++ []))[front.length]? = none := by
        rw [List.getElem?_eq_none_iff, length_encode, List.append_nil, hsize]
      rw [hexCode, hend]
      rfl
    | cons c back =>
      obtain ⟨b, hb, hclass, hchar⟩ := byte_behind_digits hf c back
      rw [hexCode, hb]
      by_cases hc : isHexDigit c = true
      · have hv := digitValue_lt_sixteen hc
        have hmore : (code + 1) * 16 * Nat.pow 16 left ≤ Offset.maxPosition + 1 := by
          rw [Nat.mul_assoc]
          rwa [Nat.pow_eq, Nat.pow_succ'] at hroom
        have hshift : shiftIn 4 (Offset.maxPosition + 1) code (digitValue c) = code * 16 + digitValue c :=
          shiftIn_eq hv ((Nat.le_mul_of_pos_right _ (Nat.pow_pos (by decide))).trans hmore)
        simp only [hchar hc, if_pos hc, hshift, digitsBehind_cons hc]
        have hfront : ∀ d ∈ front ++ [c], isHexDigit d = true :=
          List.forall_mem_append.mpr ⟨hf, List.forall_mem_singleton.mpr hc⟩
        have hless : (code * 16 + digitValue c + 1) * Nat.pow 16 left ≤ Offset.maxPosition + 1 :=
          (Nat.mul_le_mul_right _ (by omega)).trans hmore
        have hnext := ih hfront hless (by rwa [List.append_assoc] : 1 + size (front ++ [c] ++ back) ≤ Offset.max)
        simpa using hnext
      · have hcut : charsFrom? (letter :: front ++ c :: back) (1 + front.length) = some (c :: back) := by
          rw [← hsize, ← hl, ← size_cons]
          exact charsFrom?_append _ _
        have hsum : 1 + front.length ≤ Offset.max := by
          rw [size_append, hsize] at hpos
          omega
        simp only [if_neg (mt hclass.mp hc), Offset.addPositions_eq_ok hsum, Trap.lift_ok, ok_bind, hcut,
          Trap.require_some, List.head?_cons]
        simp [digitsBehind, hc]
        rfl

lemma digitsBehind_zero (width : Nat) (cs : List Char) :
    digitsBehind letter width cs width 0 =
      match digitFault? letter width cs with
      | some fault => .error fault
      | none => .ok (value 16 (cs.take width)) := by
  rw [digitsBehind, digitFault?]
  cases (cs.take width).find? (!isHexDigit ·) with
  | some digit => rfl
  | none =>
    by_cases hl : cs.length < width
    · simp only [if_pos hl]
    · simp only [if_neg hl]
      rfl

lemma head?_encode_isSign (cs : List Char) :
    ((encode cs).head? = some 0x2B ∨ (encode cs).head? = some 0x2D) ↔ (cs.take 1).any isSign = true := by
  cases cs with
  | nil => simp
  | cons c cs =>
    obtain ⟨b, bs, he⟩ := Byte.exists_encode_cons c cs
    simpa [he] using Byte.encodes_isSign.head he

def parsed (pos : Nat) (cs : List Char) : Except Fault Reading → Parsed
  | .ok r => .ok (r.meaning, pos + 1 + size (cs.take r.length))
  | .error fault => .error ⟨pos, fault⟩

lemma hexAt_eq {width : Nat} (hw : hexWidth? letter = some width)
    (hpos : pos + 1 + size (letter :: cs) ≤ Offset.max) :
    hexAt (letter :: cs) pos letter width = .ok (parsed pos (letter :: cs) (readHex letter width cs)) := by
  have hletter : ∀ e ∈ hexLetters, e.1.utf8Size = 1 ∧ Nat.pow 16 e.2 ≤ Offset.maxPosition + 1 := by decide
  obtain ⟨hl, hroom⟩ := hletter _ (hexWidth?_eq_some_iff.mp hw)
  have hbytes : bytesFrom? (encode (letter :: cs)) 1 = some (encode cs) := hl ▸ bytesFrom?_append [letter] cs
  rw [size_cons, hl] at hpos
  have hcode : hexCode letter width (letter :: cs) (encode cs) width 0 0 =
      .ok (digitsBehind letter width cs width 0) :=
    hexCode_eq hl width (List.forall_mem_nil _) width ((Nat.one_mul _).trans_le hroom)
      (by rw [List.nil_append]; omega)
  have hofPos : Offset.ofPosition pos = pos := Offset.ofPosition_eq (by omega)
  rw [hexAt, readHex, hbytes, Trap.require_some, ok_bind]
  by_cases hsign : (cs.take 1).any isSign = true
  · simp only [if_pos hsign, if_pos ((head?_encode_isSign cs).mpr hsign), hofPos]
    rfl
  · simp only [if_neg hsign, if_neg (mt (head?_encode_isSign cs).mp hsign), hcode, ok_bind, hofPos]
    rw [digitsBehind_zero]
    cases hf : digitFault? letter width cs with
    | some fault => rfl
    | none =>
      simp only [ok_bind]
      cases ofCodePoint (value 16 (cs.take width)) with
      | error fault => rfl
      | ok meaning =>
        obtain ⟨hd, hlen⟩ := digitFault?_eq_none_iff.mp hf
        have hsize : size (cs.take width) = width := by
          rw [Byte.encodes_hexDigit.size_eq_length hd, List.length_take_of_le hlen]
        have hle : size (cs.take width) ≤ size cs := by
          conv_rhs => rw [← List.take_append_drop width cs, size_append]
          exact Nat.le_add_right _ _
        simp only [Offset.addPositions_eq_ok (show pos + 2 ≤ Offset.max by omega),
          Offset.addPositions_eq_ok (show pos + 2 + width ≤ Offset.max by omega), Trap.lift_ok, ok_bind]
        have hend : size ((letter :: cs).take (1 + width)) = 1 + width := by
          rw [Nat.add_comm, List.take_succ_cons, size_cons, hl, hsize, Nat.add_comm]
        simp only [Except.map, parsed, hend]
        rw [show pos + 1 + (1 + width) = pos + 2 + width by omega]
        rfl

lemma utf8Size_of_simple {meaning : Char} (h : simple? letter = some meaning) : letter.utf8Size = 1 := by
  have key : ∀ e ∈ letters, e.1.utf8Size = 1 := by decide
  exact key _ (simple?_eq_some_iff.mp h)

lemma escapeAt_eq {text before : List Char} (ht : text = before ++ '\\' :: cs) (hs : size text ≤ Offset.max) :
    escapeAt text (size before) = .ok (parsed (size before) cs (read cs)) := by
  have hsize : size text = size before + 1 + size cs := by
    rw [ht, size_append, size_cons, Nat.add_assoc]
    rfl
  have hcut : charsFrom? text (size before + 1) = some cs := by
    have hback : size before + 1 = size (before ++ ['\\']) := (size_append before ['\\']).symm
    rw [ht, hback, List.append_cons]
    exact charsFrom?_append _ _
  have hofPos : Offset.ofPosition (size before) = size before := Offset.ofPosition_eq (by omega)
  rw [escapeAt, Offset.addPositions_eq_ok (by omega), Trap.lift_ok, ok_bind, hcut, Trap.require_some, ok_bind]
  cases cs with
  | nil =>
    simp only [hofPos]
    rfl
  | cons letter cs =>
    rw [read]
    cases hm : simple? letter with
    | some meaning =>
      have hle : size (letter :: cs) = 1 + size cs := by rw [size_cons, utf8Size_of_simple hm]
      simp only [hm, Offset.addPositions_eq_ok (show size before + 2 ≤ Offset.max by omega), Trap.lift_ok, ok_bind]
      rw [parsed, List.take_succ_cons, List.take_zero, size_cons, utf8Size_of_simple hm]
      rfl
    | none =>
      by_cases ho : isOctalDigit letter = true
      · obtain ⟨more, rest, hdigits, hsplit, -⟩ := exists_octalDigits ho cs
        have htake : (letter :: cs).take (octalDigits (letter :: cs)).length = octalDigits (letter :: cs) := by
          rw [hdigits, hsplit, List.take_left]
        simp only [hm, if_pos ho, octalAt_eq ho (hsize ▸ hs), ok_bind, parsed, htake]
        rfl
      · simp only [hm, if_neg ho]
        cases hw : hexWidth? letter with
        | some width => exact hexAt_eq hw (hsize ▸ hs)
        | none =>
          simp only [hofPos]
          rfl

end Escape

end HclLiteral
