import HclLiteral.Embedding.Heredoc
import HclLiteral.Embedding.Places
import HclLiteral.Proofs.ScanTrace
import Mathlib.Algebra.Group.Nat.Defs

/-! A heredoc scanned line by line and scanned whole. An opener does not reach over a line's end, so the
two agree as long as every line closes what it opens and no dollar sign escapes an opener. -/

namespace HclLiteral

namespace Text

lemma flatten_lines (cs : List Char) : (lines cs).flatten = cs := by
  fun_induction lines cs with
  | case1 => rfl
  | case2 cs ih => simp [ih]
  | case3 c cs hc he ih => simpa [he] using ih
  | case4 c cs hc line rest he ih => simpa [he] using ih

lemma getLast?_of_mem_lines (cs : List Char) :
    ∀ line ∈ (lines cs).dropLast, line.getLast? = some '\n' := by
  fun_induction lines cs with
  | case1 => simp
  | case2 cs ih =>
    cases hl : lines cs with
    | nil => simp
    | cons line rest =>
      rw [hl] at ih
      rw [List.dropLast_cons_cons, List.forall_mem_cons]
      exact ⟨rfl, ih⟩
  | case3 c cs hc he ih => simp
  | case4 c cs hc line rest he ih =>
    cases rest with
    | nil => simp
    | cons next rest =>
      rw [he, List.dropLast_cons_cons, List.forall_mem_cons] at ih
      rw [List.dropLast_cons_cons, List.forall_mem_cons]
      obtain ⟨init, rfl⟩ := List.getLast?_eq_some_iff.mp ih.1
      exact ⟨by rw [← List.cons_append, List.getLast?_concat], ih.2⟩

lemma getLast?_encode {cs : List Char} (h : cs.getLast? = some '\n') :
    (encode cs).getLast? = some 0x0A := by
  obtain ⟨init, rfl⟩ := List.getLast?_eq_some_iff.mp h
  rw [encode_append]
  exact List.getLast?_concat

lemma infix_of_infix_encode {cs : List Char} (h : [0x24, 0x24, 0x7B] <:+: encode cs) :
    ['$', '$', '{'] <:+: cs := by
  obtain ⟨front, back, h⟩ := h
  have hd : (encode cs).drop front.length = 0x24 :: 0x24 :: 0x7B :: back := by
    rw [← h, List.append_assoc, List.drop_left]
    rfl
  obtain ⟨before, c, after, rfl, -, hc, ha⟩ := exists_char_of_narrow hd (by decide)
  have ho : Interpolation.opens ((encode after).drop 0) = true := by
    rw [List.drop_zero, ← ha]
    rfl
  obtain ⟨between, rest, rfl, hz⟩ := Interpolation.exists_of_opens_drop ho
  obtain rfl := eq_nil_of_size_eq_zero hz
  obtain rfl : c = '$' := Char.toNat_inj.mp hc
  exact ⟨before, rest, by simp⟩

end Text

namespace Interpolation

variable {bs : List UInt8}

lemma freeOpener?_eq_opener? (h : ¬ [0x24, 0x24, 0x7B] <:+: bs) (afterDollar : Bool)
    (hd : afterDollar = true → opens bs = false) : freeOpener? afterDollar bs = opener? bs := by
  induction bs generalizing afterDollar with
  | nil => rfl
  | cons b bs ih =>
    rw [freeOpener?, opener?]
    by_cases ho : opens (b :: bs) = true
    · have ha : afterDollar = false := by
        cases afterDollar with
        | false => rfl
        | true => cases ho.symm.trans (hd rfl)
      rw [if_pos ho, ho, ha]
      rfl
    · rw [if_neg ho, if_neg (by simp [ho]), ih fun hi => h (List.infix_cons hi)]
      intro hb
      by_contra hn
      obtain ⟨rest, rfl⟩ := opens_iff.mp (Bool.not_eq_false _ ▸ hn)
      rw [decide_eq_true_iff, Mark.ofByte_dollar_iff] at hb
      subst hb
      exact h ⟨[], rest, rfl⟩

lemma scanned_attempts (ht : Text.IsTail bs) (h : ¬ [0x24, 0x24, 0x7B] <:+: bs) :
    Scanned 0 bs (attempts none bs) := by
  have hf := freeOpener?_eq_opener? h false nofun
  cases ho : opener? bs with
  | none =>
    rw [ho] at hf
    rw [attempts, hf]
    exact scanned_of_opener?_none ho 0
  | some first =>
    rw [ho] at hf
    apply scanned_of_opener?_some ho
    rw [Nat.zero_add]
    exact attempts_of_freeOpener? hf ht

lemma map_shiftRight_filterMap (as : List Attempt) (n : Nat) :
    (as.filterMap Attempt.span?).map (·.shiftRight n) =
      (as.map (·.shiftRight n)).filterMap Attempt.span? := by
  rw [List.map_filterMap, List.filterMap_map]
  congr 1
  funext a
  cases a <;> rfl

lemma not_mem_map_shiftRight {as : List Attempt} (h : ∀ span, .unterminated span ∉ as) (n : Nat) :
    ∀ span, .unterminated span ∉ as.map (·.shiftRight n) := by
  intro span hm
  obtain ⟨a, ha, he⟩ := List.mem_map.mp hm
  cases a with
  | unterminated s => exact h s ha
  | closed | exhausted | resync => cases he

lemma scanned_linePlaces {lines : List (List Char)} (start : Nat)
    (hn : ∀ line ∈ lines.dropLast, line.getLast? = some '\n')
    (hd : ∀ line ∈ lines, ¬ [0x24, 0x24, 0x7B] <:+: Text.encode line)
    (hc : ∀ line ∈ lines, ∀ span, .unterminated span ∉ attempts none (Text.encode line))
    (hs : start + Text.size lines.flatten ≤ Offset.max) :
    ∃ as, Scanned start (Text.encode lines.flatten) as ∧
      linePlaces start lines = as.filterMap Attempt.span? := by
  induction lines generalizing start with
  | nil => exact ⟨[], .done start, rfl⟩
  | cons line rest ih =>
    rw [List.forall_mem_cons] at hd hc
    rw [List.flatten_cons, Text.size_append] at hs
    have hrest : ∀ line ∈ rest.dropLast, line.getLast? = some '\n' := by
      cases rest with
      | nil => exact nofun
      | cons next rest => exact fun l hl => hn l (List.mem_cons_of_mem _ hl)
    obtain ⟨as, ha, hp⟩ := ih (start + Text.size line) hrest hd.2 hc.2 (by omega)
    rw [← Text.length_encode line] at ha
    have hline := (scanned_attempts (Text.isTail_encode line) hd.1).shift (n := start)
      (by rw [Text.length_encode]; omega)
    rw [Nat.zero_add] at hline
    -- a line with another one behind it ends with a newline, so no opener lies across their border
    have hedge : (Text.encode line).getLast? = some 0x24 →
        (Text.encode rest.flatten).head? ≠ some 0x7B := by
      intro hl
      cases rest with
      | nil => exact nofun
      | cons next rest => cases (Text.getLast?_encode (hn line List.mem_cons_self)).symm.trans hl
    have hall := hline.append (not_mem_map_shiftRight hc.1 start) hedge ha
    rw [← Text.encode_append, ← List.flatten_cons] at hall
    refine ⟨_, hall, ?_⟩
    rw [linePlaces, hp, scanBytes_eq_filterMap, map_shiftRight_filterMap, ← List.filterMap_append]

theorem heredoc_places_eq_interpolations (file : HostFile) (text : String) (range : Span)
    (hl : (Text.bytes text).length < 2 ^ 32) (hf : file.interpolates = true)
    (hd : ¬ ['$', '$', '{'] <:+: text.toList)
    (hc : ∀ line ∈ Text.lines text.toList, ∀ span,
      .unterminated span ∉ attempts none (Text.encode line)) :
    places file (.heredoc text) = (Injection.ofText text range).interpolations := by
  have hi : (Injection.ofText text range).interpolations = spans text := by
    unfold Injection.ofText
    split <;> rfl
  have hflat := Text.flatten_lines text.toList
  have hline : ∀ line ∈ Text.lines text.toList, ¬ [0x24, 0x24, 0x7B] <:+: Text.encode line := by
    intro line hm hin
    apply hd
    rw [← hflat]
    exact (Text.infix_of_infix_encode hin).trans (List.infix_of_mem_flatten hm)
  obtain ⟨as, hs, hp⟩ := scanned_linePlaces 0 (Text.getLast?_of_mem_lines text.toList) hline hc
    (by rw [hflat, Nat.zero_add, ← Text.length_encode]; exact Nat.le_of_lt_succ hl)
  rw [hflat] at hs
  have hall := scanned_attempts (Text.isTail_bytes text) (mt Text.infix_of_infix_encode hd)
  rw [hi, places, if_pos hf, heredocPlaces, hp, spans_eq_filterMap, hs.unique hall]

theorem heredoc_places_of_three_lines :
    ¬ ['$', '$', '{'] <:+: "a$\x7bf(\"\x7d\")\x7d$\n\x7b$\x7bé\x7d\n\x7d$\x7bb\x7d".toList ∧
      places ⟨"main.tf", true⟩ (.heredoc "a$\x7bf(\"\x7d\")\x7d$\n\x7b$\x7bé\x7d\n\x7d$\x7bb\x7d") =
        [⟨1, 10⟩, ⟨13, 18⟩, ⟨20, 24⟩] := by
  have hd : ¬ ['$', '$', '{'] <:+: "a$\x7bf(\"\x7d\")\x7d$\n\x7b$\x7bé\x7d\n\x7d$\x7bb\x7d".toList := by
    decide +kernel
  have ha : (Text.lines "a$\x7bf(\"\x7d\")\x7d$\n\x7b$\x7bé\x7d\n\x7d$\x7bb\x7d".toList).map
      (fun line => attempts none (Text.encode line)) =
        [[.closed ⟨1, 10⟩], [.closed ⟨1, 6⟩], [.closed ⟨1, 5⟩]] := by decide +kernel
  have hi : (Injection.ofText "a$\x7bf(\"\x7d\")\x7d$\n\x7b$\x7bé\x7d\n\x7d$\x7bb\x7d" ⟨0, 24⟩).interpolations =
      [⟨1, 10⟩, ⟨13, 18⟩, ⟨20, 24⟩] := by decide +kernel
  refine ⟨hd, (heredoc_places_eq_interpolations ⟨"main.tf", true⟩ _ ⟨0, 24⟩ (by decide +kernel)
    (by decide +kernel) hd ?_).trans hi⟩
  intro line hline span hs
  have hm := List.mem_map_of_mem (f := fun line => attempts none (Text.encode line)) hline
  rw [ha] at hm
  simp only [List.mem_cons, List.not_mem_nil, or_false] at hm
  rcases hm with he | he | he <;> rw [he] at hs <;> cases List.mem_singleton.mp hs

end Interpolation

end HclLiteral
