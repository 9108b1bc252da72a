import HclLiteral.Proofs.HeredocLines
import HclLiteral.Proofs.Placement

namespace HclLiteral

namespace Text

lemma lines_eq_nil_iff {cs : List Char} : lines cs = [] ↔ cs = [] := by
  constructor
  · intro h
    rw [← flatten_lines cs, h]
    rfl
  · rintro rfl
    rfl

lemma lines_append {cs : List Char} (h : cs = [] ∨ cs.getLast? = some '\n') (ds : List Char) :
    lines (cs ++ ds) = lines cs ++ lines ds := by
  fun_induction lines cs with
  | case1 => rfl
  | case2 cs ih =>
    have htail : cs = [] ∨ cs.getLast? = some '\n' := by
      cases cs with
      | nil => exact Or.inl rfl
      | cons d cs => simpa using h
    rw [List.cons_append, lines, if_pos rfl, ih htail]
    rfl
  | case3 c cs hc he ih =>
    obtain rfl := lines_eq_nil_iff.mp he
    simp [hc] at h
  | case4 c cs hc line rest he ih =>
    have hn : cs ≠ [] := by
      rintro rfl
      cases he
    have htail : cs.getLast? = some '\n' := by simpa [List.getLast?_cons_of_ne_nil hn] using h
    rw [List.cons_append, lines, if_neg hc, ih (Or.inr htail), he]
    rfl

lemma newline_not_mem_dropLast (cs : List Char) : ∀ line ∈ lines cs, '\n' ∉ line.dropLast := by
  fun_induction lines cs with
  | case1 => simp
  | case2 cs ih => simpa using ih
  | case3 c cs hc he ih => simp
  | case4 c cs hc line rest he ih =>
    rw [he, List.forall_mem_cons] at ih
    refine List.forall_mem_cons.mpr ⟨?_, ih.2⟩
    cases line with
    | nil => simp
    | cons d line =>
      rw [List.dropLast_cons_cons, List.mem_cons, not_or]
      exact ⟨Ne.symm hc, ih.1⟩

lemma newline_ends_line {text : String} {before line after : List Char} {i : Nat}
    (ht : text.toList = before ++ line ++ after) (hn : '\n' ∉ line.dropLast) (hlow : size before ≤ i)
    (hhigh : i < size before + size line) (hi : (bytes text)[i]? = some 0x0A) :
    i + 1 = size before + size line := by
  have hbytes : (encode line)[i - size before]? = some 0x0A := by
    have hlength := length_encode before
    have hlength' := length_encode line
    rw [bytes, ht, List.append_assoc, encode_append, List.getElem?_append_right (by omega), encode_append,
      List.getElem?_append_left (by omega), hlength] at hi
    exact hi
  obtain ⟨front, back, rfl, hfront⟩ := (getElem?_encode_eq_iff (c := '\n') (by decide)).mp hbytes
  have hback : back = [] := by
    by_contra hb
    apply hn
    rw [List.dropLast_append_of_ne_nil (List.cons_ne_nil _ _), List.dropLast_cons_of_ne_nil hb]
    simp
  subst hback
  have hone : size ['\n'] = 1 := rfl
  rw [size_append, hone]
  omega

end Text

namespace Interpolation

variable {text : String} {before : List Char} {lines : List (List Char)} {s : Span}

lemma linePlaces_append (start : Nat) (lines more : List (List Char)) :
    linePlaces start (lines ++ more) =
      linePlaces start lines ++ linePlaces (start + Text.size lines.flatten) more := by
  induction lines generalizing start with
  | nil => rfl
  | cons line lines ih =>
    rw [List.cons_append, linePlaces, ih, linePlaces, List.flatten_cons, Text.size_append,
      ← Nat.add_assoc, List.append_assoc]

lemma linePlaces_add (start n : Nat) (lines : List (List Char)) :
    linePlaces (start + n) lines = (linePlaces start lines).map (·.shiftRight n) := by
  induction lines generalizing start with
  | nil => rfl
  | cons line lines ih =>
    simp only [linePlaces, List.map_append, List.map_map, Function.comp_def, Span.shiftRight_shiftRight]
    rw [Nat.add_right_comm, ih]

lemma placedIn_linePlaces (ht : text.toList = before ++ lines.flatten)
    (hl : (Text.bytes text).length ≤ Offset.max) :
    PlacedIn text ⟨Text.size before, Text.size text.toList⟩ (linePlaces (Text.size before) lines) := by
  induction lines generalizing before with
  | nil =>
    apply PlacedIn.nil
    rw [ht]
    simp
  | cons line lines ih =>
    rw [List.flatten_cons, ← List.append_assoc] at ht
    have htail := ih ht
    rw [Text.size_append] at htail
    exact (placedIn_part ht hl).append htail

lemma exists_line (hl : (Text.bytes text).length ≤ Offset.max) (ht : text.toList = before ++ lines.flatten)
    (hs : s ∈ linePlaces (Text.size before) lines) :
    ∃ line ∈ lines, ∃ front back, text.toList = front ++ line ++ back ∧
      s.IsWithin ⟨Text.size front, Text.size front + Text.size line⟩ := by
  induction lines generalizing before with
  | nil => cases hs
  | cons line lines ih =>
    rw [List.flatten_cons, ← List.append_assoc] at ht
    rcases List.mem_append.mp hs with hs | hs
    · exact ⟨line, List.mem_cons_self, before, lines.flatten, ht, (placedIn_part ht hl).within s hs⟩
    · rw [← Text.size_append] at hs
      obtain ⟨other, hmem, hpart⟩ := ih ht hs
      exact ⟨other, List.mem_cons_of_mem _ hmem, hpart⟩

lemma places_heredoc {file : HostFile} (hf : file.interpolates = true) (text : String) :
    places file (.heredoc text) = linePlaces 0 (Text.lines text.toList) := by
  rw [places, if_pos hf]
  rfl

lemma placedIn_heredoc {file : HostFile} (hf : file.interpolates = true)
    (hl : (Text.bytes text).length ≤ Offset.max) :
    PlacedIn text ⟨0, Text.size text.toList⟩ (places file (.heredoc text)) := by
  rw [places_heredoc hf]
  have ht : text.toList = [] ++ (Text.lines text.toList).flatten := (Text.flatten_lines text.toList).symm
  exact placedIn_linePlaces ht hl

lemma places_heredoc_append {file : HostFile} (hf : file.interpolates = true) {a : String}
    (ha : a = "" ∨ a.toList.getLast? = some '\n') (b : String) :
    places file (.heredoc (a ++ b)) =
      places file (.heredoc a) ++ (places file (.heredoc b)).map (·.shiftRight (Text.bytes a).length) := by
  have hlines : Text.lines (a ++ b).toList = Text.lines a.toList ++ Text.lines b.toList := by
    rw [String.toList_append]
    exact Text.lines_append (ha.imp_left String.toList_eq_nil_iff.mpr) b.toList
  rw [places_heredoc hf, places_heredoc hf, places_heredoc hf, hlines, linePlaces_append, Text.flatten_lines,
    linePlaces_add, Text.bytes, Text.length_encode]

/-- A heredoc cut behind a newline has the places of the front and, moved, those of the rest. Its places are
in order and apart, and a newline in one of them ends it. -/
theorem heredoc_places_by_line (file : HostFile) (hf : file.interpolates = true) :
    (∀ a b : String, a = "" ∨ a.toList.getLast? = some '\n' →
      (Text.bytes a).length + (Text.bytes b).length < 2 ^ 32 →
      places file (.heredoc (a ++ b)) = places file (.heredoc a) ++ (places file (.heredoc b)).map fun s =>
        ⟨s.start + (Text.bytes a).length, s.stop + (Text.bytes a).length⟩) ∧
    ∀ text : String, (Text.bytes text).length < 2 ^ 32 →
      Placed text (places file (.heredoc text)) ∧
      ∀ s ∈ places file (.heredoc text), ∀ i ∈ s, (Text.bytes text)[i]? = some 0x0A → i + 1 = s.stop := by
  constructor
  · intro a b ha hl
    rw [places_heredoc_append hf ha]
    apply congrArg (places file (.heredoc a) ++ ·)
    apply List.map_congr_left
    intro s hs
    have hb : (Text.bytes b).length ≤ Offset.max := Nat.le_trans (Nat.le_add_left _ _) (Nat.le_of_lt_succ hl)
    have hplaced := (placedIn_heredoc hf hb).placed
    have hlt := hplaced.nonempty s hs
    have hle := hplaced.inside s hs
    rw [Span.shiftRight_eq]
    · rw [Offset.max]
      omega
    · rw [Offset.max]
      omega
  · intro text hl
    have hmax : (Text.bytes text).length ≤ Offset.max := Nat.le_of_lt_succ hl
    refine ⟨(placedIn_heredoc hf hmax).placed, ?_⟩
    intro s hs i hi hnewline
    rw [places_heredoc hf] at hs
    have ht : text.toList = [] ++ (Text.lines text.toList).flatten := (Text.flatten_lines text.toList).symm
    obtain ⟨line, hline, front, back, hpart, hlow, hhigh⟩ := exists_line hmax ht hs
    rw [Span.mem_iff] at hi
    simp only at hlow hhigh
    have hlast := Text.newline_not_mem_dropLast _ line hline
    have hend := Text.newline_ends_line hpart hlast (by omega) (by omega) hnewline
    omega

theorem heredoc_places_behind_open_line :
    HostFile.interpolates ⟨"main.tf", true⟩ = true ∧
      "é$\x7ba\n\n$\x7bb\x7d$\x7b\n".toList.getLast? = some '\n' ∧
      places ⟨"main.tf", true⟩
          (.heredoc ("é$\x7ba\n\n$\x7bb\x7d$\x7b\n" ++ "x$\x7bc\x7d\n$$\x7bd\x7d$\x7be\x7d")) =
        [⟨2, 6⟩, ⟨7, 11⟩, ⟨11, 14⟩, ⟨15, 19⟩, ⟨25, 29⟩] ∧
      Placed "é$\x7ba\n\n$\x7bb\x7d$\x7b\n" [⟨2, 6⟩, ⟨7, 11⟩, ⟨11, 14⟩] ∧
      ∀ i ∈ Span.mk 11 14, (Text.bytes "é$\x7ba\n\n$\x7bb\x7d$\x7b\n")[i]? = some 0x0A → i = 13 := by
  have hf : HostFile.interpolates ⟨"main.tf", true⟩ = true := by decide +kernel
  have ha : "é$\x7ba\n\n$\x7bb\x7d$\x7b\n".toList.getLast? = some '\n' := by decide +kernel
  have hfront : places ⟨"main.tf", true⟩ (.heredoc "é$\x7ba\n\n$\x7bb\x7d$\x7b\n") =
      [⟨2, 6⟩, ⟨7, 11⟩, ⟨11, 14⟩] := by decide +kernel
  have hback : places ⟨"main.tf", true⟩ (.heredoc "x$\x7bc\x7d\n$$\x7bd\x7d$\x7be\x7d") =
      [⟨1, 5⟩, ⟨11, 15⟩] := by decide +kernel
  have hlength : (Text.bytes "é$\x7ba\n\n$\x7bb\x7d$\x7b\n").length = 14 := by decide +kernel
  have hlength' : (Text.bytes "x$\x7bc\x7d\n$$\x7bd\x7d$\x7be\x7d").length = 15 := by decide +kernel
  obtain ⟨hjoin, hplaced⟩ := heredoc_places_by_line ⟨"main.tf", true⟩ hf
  have hall := hjoin _ "x$\x7bc\x7d\n$$\x7bd\x7d$\x7be\x7d" (Or.inr ha)
    (by rw [hlength, hlength']; decide)
  rw [hfront, hback, hlength] at hall
  obtain ⟨hin, hnewline⟩ := hplaced "é$\x7ba\n\n$\x7bb\x7d$\x7b\n" (by rw [hlength]; decide)
  rw [hfront] at hin hnewline
  refine ⟨hf, ha, hall, hin, ?_⟩
  intro i hi hbyte
  exact Nat.succ.inj (hnewline ⟨11, 14⟩ (by decide) i hi hbyte)

end Interpolation

end HclLiteral
