import HclLiteral.Token.Quoted
import HclLiteral.Token.Tag
import Mathlib.Computability.Language
import Mathlib.Tactic.Lemma

namespace HclLiteral

namespace Pattern

def IsBlank (c : Char) : Prop := c = ' ' ∨ c = '\t' ∨ c = '\r' ∨ c = '\n'

def IsDigit (c : Char) : Prop := '0' ≤ c ∧ c ≤ '9'

def IsHexDigit (c : Char) : Prop := IsDigit c ∨ ('a' ≤ c ∧ c ≤ 'f') ∨ ('A' ≤ c ∧ c ≤ 'F')

def IsNameStart (c : Char) : Prop := ('a' ≤ c ∧ c ≤ 'z') ∨ ('A' ≤ c ∧ c ≤ 'Z') ∨ c = '_'

def IsNameContinue (c : Char) : Prop := IsNameStart c ∨ IsDigit c ∨ c = '-'

instance : DecidablePred IsBlank := fun _ => inferInstanceAs (Decidable (_ ∨ _))

instance : DecidablePred IsDigit := fun _ => inferInstanceAs (Decidable (_ ∧ _))

instance : DecidablePred IsHexDigit := fun _ => inferInstanceAs (Decidable (_ ∨ _))

instance : DecidablePred IsNameStart := fun _ => inferInstanceAs (Decidable (_ ∨ _))

instance : DecidablePred IsNameContinue := fun _ => inferInstanceAs (Decidable (_ ∨ _))

def one (p : Char → Prop) : Language Char := {cs | ∃ c, p c ∧ cs = [c]}

def run (p : Char → Prop) : Language Char := {cs | cs ≠ [] ∧ ∀ c ∈ cs, p c}

def name : Language Char := one IsNameStart * (1 + run IsNameContinue)

def hexadecimal : Language Char :=
  one (· = '0') * (one (fun c => c = 'x' ∨ c = 'X') * run IsHexDigit)

def fraction : Language Char := 1 + one (· = '.') * run IsDigit

def exponent : Language Char :=
  1 + one (fun c => c = 'e' ∨ c = 'E') * ((1 + one (fun c => c = '+' ∨ c = '-')) * run IsDigit)

def decimal : Language Char := run IsDigit * fraction * exponent

def number : Language Char := hexadecimal + decimal

def quoted : Language Char := {cs | ∃ text, Grammar.StringText text ∧ cs = '"' :: text ++ ['"']}

/-- The characters are those of the longest text of the language that comes in front of `rest`. -/
def Longest (l : Language Char) (cs rest : List Char) : Prop :=
  cs ∈ l ∧ ∀ ds ∈ l, ds <+: cs ++ rest → ds <+: cs

def Unmatched (l : Language Char) (cs : List Char) : Prop := ∀ ds ∈ l, ¬ ds <+: cs

end Pattern

/-- The texts that a tag may carry. A string that stays open is only known to start with a quote. -/
def Tag.pattern : Tag → Language Char
  | .name => Pattern.name
  | .number => Pattern.number
  | .string => Pattern.quoted
  | .blank => Pattern.run Pattern.IsBlank
  | .nul => Pattern.one (· = '\x00')
  | .openString => {cs | cs.head? = some '"'}
  | .invalid => Pattern.one fun _ => True
  | .endOfText => 0
  | tag => {cs | tag.spelling? = some cs}

inductive Tag.Takes : Tag → List Char → List Char → Prop
  | spelled {tag : Tag} {cs rest : List Char} :
      tag.spelling? = some cs →
      (tag ∈ [.logicalNot, .less, .greater] → rest.head? ≠ some '=') →
      (tag = .dollar → rest.head? ≠ some '{') → Takes tag cs rest
  | longest {tag : Tag} {cs rest : List Char} :
      tag ∈ [.blank, .name, .number] → Pattern.Longest tag.pattern cs rest → Takes tag cs rest
  | nul {rest : List Char} : Takes .nul ['\x00'] rest
  | string {cs rest : List Char} :
      cs ∈ Pattern.quoted → (∀ ds ∈ Pattern.quoted, ds <+: cs ++ rest → ds = cs) →
      Takes .string cs rest
  | openString {cs : List Char} :
      Pattern.Unmatched Pattern.quoted ('"' :: cs) → Takes .openString ('"' :: cs) []
  | invalid {c : Char} {rest : List Char} :
      (∀ tag : Tag, tag ≠ .invalid → Pattern.Unmatched tag.pattern (c :: rest)) →
      Takes .invalid [c] rest

namespace Pattern

variable {p : Char → Prop} {l m : Language Char} {c : Char} {cs ds rest : List Char}

lemma cons_mem_one_mul : c :: cs ∈ one p * l ↔ p c ∧ cs ∈ l := by
  rw [Language.mem_mul]
  constructor
  · rintro ⟨_, ⟨d, hd, rfl⟩, tail, ht, he⟩
    obtain ⟨rfl, rfl⟩ := List.cons.inj he
    exact ⟨hd, ht⟩
  · rintro ⟨hc, hl⟩
    exact ⟨[c], ⟨c, hc, rfl⟩, cs, hl, rfl⟩

lemma prefix_of_class (hd : ∀ c ∈ ds, p c) (hr : ∀ c ∈ rest.head?, ¬ p c) (h : ds <+: cs ++ rest) :
    ds <+: cs := by
  rcases List.prefix_or_prefix_of_prefix h (List.prefix_append cs rest) with hp | ⟨more, rfl⟩
  · exact hp
  · cases more with
    | nil => rw [List.append_nil]
    | cons c more =>
      obtain ⟨tail, rfl⟩ := (List.prefix_append_right_inj cs).mp h
      exact absurd (hd c (by simp)) (hr c rfl)

lemma longest_run (hn : cs ≠ []) (hc : ∀ c ∈ cs, p c) (hr : ∀ c ∈ rest.head?, ¬ p c) :
    Longest (run p) cs rest :=
  ⟨⟨hn, hc⟩, fun _ hd h => prefix_of_class hd.2 hr h⟩

lemma Longest.head_not (h : Longest (run p) cs rest) : ∀ c ∈ rest.head?, ¬ p c := by
  intro c hc hp
  obtain ⟨tail, rfl⟩ := List.head?_eq_some_iff.mp hc
  have hrun : cs ++ [c] ∈ run p :=
    ⟨by simp, List.forall_mem_append.mpr ⟨h.1.2, List.forall_mem_singleton.mpr hp⟩⟩
  have hle := (h.2 _ hrun ⟨tail, by simp⟩).length_le
  rw [List.length_append] at hle
  exact Nat.not_succ_le_self _ hle

lemma longest_one_add (h : Longest l cs rest) : Longest (1 + l) cs rest := by
  refine ⟨Or.inr h.1, ?_⟩
  rintro ds (rfl | hd) hp
  · exact List.nil_prefix
  · exact h.2 ds hd hp

lemma longest_nil (h : Unmatched l cs) : Longest (1 + l) [] cs := by
  refine ⟨Or.inl rfl, ?_⟩
  rintro ds (rfl | hd) hp
  · exact List.nil_prefix
  · exact absurd hp (h ds hd)

lemma longest_one_mul (hc : p c) (h : Longest l cs rest) : Longest (one p * l) (c :: cs) rest := by
  refine ⟨cons_mem_one_mul.mpr ⟨hc, h.1⟩, ?_⟩
  intro ds hd hp
  rcases List.prefix_cons_iff.mp hp with rfl | ⟨tail, rfl, ht⟩
  · exact List.nil_prefix
  · exact List.cons_prefix_cons.mpr ⟨rfl, h.2 tail (cons_mem_one_mul.mp hd).2 ht⟩

lemma unmatched_one_mul (h : ∀ c tail, cs = c :: tail → p c → Unmatched l tail) :
    Unmatched (one p * l) cs := by
  intro ds hd hp
  obtain ⟨_, ⟨c, hc, rfl⟩, tail, ht, rfl⟩ := Language.mem_mul.mp hd
  obtain ⟨rest, rfl⟩ := hp
  exact h c _ rfl hc tail ht (List.prefix_append tail rest)

lemma eq_nil_of_cut_short (hm : ∀ c ∈ cs, ∀ tail, c :: tail ∉ m) {front back : List Char}
    (hc : cs = front ++ back) (hb : back ≠ []) (hd : ds ∈ m) (h : ds <+: back ++ rest) : ds = [] := by
  obtain ⟨c, back, rfl⟩ := List.exists_cons_of_ne_nil hb
  rcases List.prefix_cons_iff.mp h with rfl | ⟨tail, rfl, -⟩
  · rfl
  · exact absurd hd (hm c (by simp [hc]) tail)

/-- If no character of the first match can start the second, the two matches together are longest. -/
lemma longest_mul (hl : Longest l cs (ds ++ rest)) (hd : Longest m ds rest)
    (hm : ∀ c ∈ cs, ∀ tail, c :: tail ∉ m) : Longest (l * m) (cs ++ ds) rest := by
  refine ⟨Language.append_mem_mul hl.1 hd.1, ?_⟩
  intro es he hp
  obtain ⟨x, hx, y, hy, rfl⟩ := Language.mem_mul.mp he
  rw [List.append_assoc] at hp
  obtain ⟨z, hz⟩ := hl.2 x hx ((List.prefix_append x y).trans hp)
  rw [← hz, List.append_assoc, List.prefix_append_right_inj] at hp
  rw [← hz, List.append_assoc, List.prefix_append_right_inj]
  by_cases hn : z = []
  · rw [hn, List.nil_append] at hp ⊢
    exact hd.2 y hy hp
  · rw [eq_nil_of_cut_short hm hz.symm hn hy hp]
    exact List.nil_prefix

lemma unmatched_mul (hl : Longest l cs rest) (hu : Unmatched m rest)
    (hm : ∀ c ∈ cs, ∀ tail, c :: tail ∉ m) : Unmatched (l * m) (cs ++ rest) := by
  intro es he hp
  obtain ⟨x, hx, y, hy, rfl⟩ := Language.mem_mul.mp he
  obtain ⟨z, hz⟩ := hl.2 x hx ((List.prefix_append x y).trans hp)
  rw [← hz, List.append_assoc, List.prefix_append_right_inj] at hp
  by_cases hn : z = []
  · rw [hn, List.nil_append] at hp
    exact hu y hy hp
  · rw [eq_nil_of_cut_short hm hz.symm hn hy hp] at hy
    exact hu [] hy List.nil_prefix

def Starts (p : Char → Prop) (l : Language Char) : Prop := ∀ cs ∈ l, ∃ c ∈ cs.head?, p c

lemma starts_one : Starts p (one p) := by
  rintro _ ⟨c, hc, rfl⟩
  exact ⟨c, rfl, hc⟩

lemma starts_run : Starts p (run p) := by
  rintro cs ⟨hn, hc⟩
  obtain ⟨c, cs, rfl⟩ := List.exists_cons_of_ne_nil hn
  exact ⟨c, rfl, hc c List.mem_cons_self⟩

lemma Starts.mul (h : Starts p l) (m : Language Char) : Starts p (l * m) := by
  intro cs hcs
  obtain ⟨x, hx, y, -, rfl⟩ := Language.mem_mul.mp hcs
  obtain ⟨c, hc, hp⟩ := h x hx
  exact ⟨c, List.mem_head?_append_of_mem_head? hc, hp⟩

lemma Starts.mono {q : Char → Prop} (h : Starts p l) (hq : ∀ c, p c → q c) : Starts q l := by
  intro cs hcs
  obtain ⟨c, hc, hp⟩ := h cs hcs
  exact ⟨c, hc, hq c hp⟩

lemma Starts.unmatched (h : Starts p l) (hc : ∀ c ∈ cs.head?, ¬ p c) : Unmatched l cs := by
  intro ds hd hp
  obtain ⟨rest, rfl⟩ := hp
  obtain ⟨c, hd, hp⟩ := h ds hd
  exact hc c (List.mem_head?_append_of_mem_head? hd) hp

lemma not_mem_of_starts (h : Starts p l) (hc : ¬ p c) (tail : List Char) : c :: tail ∉ l := by
  intro hm
  obtain ⟨d, hd, hp⟩ := h _ hm
  cases hd
  exact hc hp

lemma cons_not_mem_one_add (h : Starts p l) (hc : ¬ p c) (tail : List Char) : c :: tail ∉ 1 + l := by
  rintro (he | hm)
  · cases he
  · exact not_mem_of_starts h hc tail hm

def Within (p : Char → Prop) (l : Language Char) : Prop := ∀ cs ∈ l, ∀ c ∈ cs, p c

lemma within_one : Within p (one p) := by
  rintro _ ⟨c, hc, rfl⟩ d hd
  exact List.mem_singleton.mp hd ▸ hc

lemma within_run : Within p (run p) := fun _ h => h.2

lemma Within.mono {q : Char → Prop} (h : Within p l) (hq : ∀ c, p c → q c) : Within q l :=
  fun cs hcs c hc => hq c (h cs hcs c hc)

lemma Within.mul (hl : Within p l) (hm : Within p m) : Within p (l * m) := by
  intro cs hcs c hc
  obtain ⟨x, hx, y, hy, rfl⟩ := Language.mem_mul.mp hcs
  rcases List.mem_append.mp hc with h | h
  · exact hl x hx c h
  · exact hm y hy c h

lemma Within.one_add (h : Within p l) : Within p (1 + l) := by
  rintro cs (rfl | hcs)
  · exact nofun
  · exact h cs hcs

lemma within_whole : Within (fun c => IsDigit c ∨ c = '.') (run IsDigit * fraction) :=
  (within_run.mono fun _ => Or.inl).mul
    ((within_one.mono fun _ => Or.inr).mul (within_run.mono fun _ => Or.inl)).one_add

lemma not_blank_of_class (h : ¬ p ' ' ∧ ¬ p '\t' ∧ ¬ p '\r' ∧ ¬ p '\n') (c : Char) (hc : p c) :
    ¬ IsBlank c := by
  rintro (rfl | rfl | rfl | rfl)
  · exact h.1 hc
  · exact h.2.1 hc
  · exact h.2.2.1 hc
  · exact h.2.2.2 hc

lemma one_not_blank (h : ¬ p ' ' ∧ ¬ p '\t' ∧ ¬ p '\r' ∧ ¬ p '\n') : Within (¬ IsBlank ·) (one p) :=
  within_one.mono (not_blank_of_class h)

lemma run_not_blank (h : ¬ p ' ' ∧ ¬ p '\t' ∧ ¬ p '\r' ∧ ¬ p '\n') : Within (¬ IsBlank ·) (run p) :=
  within_run.mono (not_blank_of_class h)

lemma name_not_blank : Within (¬ IsBlank ·) name :=
  (one_not_blank (by decide)).mul (run_not_blank (by decide)).one_add

lemma number_not_blank : Within (¬ IsBlank ·) number := by
  have hd : Within (¬ IsBlank ·) (run IsDigit) := run_not_blank (by decide)
  have hf : Within (¬ IsBlank ·) fraction := ((one_not_blank (by decide)).mul hd).one_add
  have he : Within (¬ IsBlank ·) exponent :=
    ((one_not_blank (by decide)).mul ((one_not_blank (by decide)).one_add.mul hd)).one_add
  rintro cs (hcs | hcs)
  · exact (one_not_blank (by decide)).mul
      ((one_not_blank (by decide)).mul (run_not_blank (by decide))) cs hcs
  · exact (hd.mul hf).mul he cs hcs

lemma starts_number : Starts IsDigit number := by
  rintro cs (hcs | hcs)
  · exact (starts_one.mono (by rintro _ rfl; exact ⟨by decide, by decide⟩)).mul _ cs hcs
  · exact (starts_run.mul _).mul _ cs hcs

lemma starts_quoted : Starts (· = '"') quoted := by
  rintro _ ⟨text, -, rfl⟩
  exact ⟨'"', rfl, rfl⟩

end Pattern

end HclLiteral
