import HclLiteral.Proofs.Tiling

namespace HclLiteral

inductive Bracket
  | interpolation
  | brace
deriving DecidableEq, Repr

namespace Bracket

def opener : Bracket → Tag
  | interpolation => .interpolationStart
  | brace => .leftBrace

def closer : Bracket → Tag
  | interpolation => .interpolationEnd
  | brace => .rightBrace

def IsSilent (tag : Tag) : Prop :=
  tag ∉ [.interpolationStart, .interpolationEnd, .leftBrace, .rightBrace]

instance (tag : Tag) : Decidable (IsSilent tag) := inferInstanceAs (Decidable (tag ∉ _))

/-- The open brackets after a tag, the innermost first. Braces count only in interpolations, and the end of
an interpolation may stand outside of all. -/
def after? (stack : List Bracket) (tag : Tag) : Option (List Bracket) :=
  match tag, stack with
  | .interpolationStart, stack => some (interpolation :: stack)
  | .leftBrace, stack => some (if interpolation ∈ stack then brace :: stack else stack)
  | .rightBrace, brace :: below => some below
  | .rightBrace, _ => none
  | .interpolationEnd, interpolation :: below => some below
  | .interpolationEnd, [] => some []
  | .interpolationEnd, _ => none
  | _, stack => some stack

def replay (stack : List Bracket) (tags : List Tag) : Option (List Bracket) := tags.foldlM after? stack

inductive Balanced : List Tag → Prop
  | nil : Balanced []
  | silent {tag : Tag} {tags : List Tag} : IsSilent tag → Balanced tags → Balanced (tag :: tags)
  | enclosed (b : Bracket) {inner tags : List Tag} :
      Balanced inner → Balanced tags → Balanced (b.opener :: inner ++ b.closer :: tags)

/-- A brace opened in an interpolation is still open. What came after it is balanced, so the interpolation is
the innermost one. -/
def HasOpenBrace (tags : List Tag) : Prop :=
  ∃ front back stack, tags = front ++ .leftBrace :: back ∧ replay [] front = some stack ∧
    interpolation ∈ stack ∧ Balanced back

inductive Step : List Bracket → Tag → List Bracket → Prop
  | opens (b : Bracket) {stack : List Bracket} :
      interpolation ∈ b :: stack → Step stack b.opener (b :: stack)
  | closes (b : Bracket) (stack : List Bracket) : Step (b :: stack) b.closer stack
  | silent {tag : Tag} (stack : List Bracket) : IsSilent tag → Step stack tag stack
  | loose {stack : List Bracket} : interpolation ∉ stack → Step stack .leftBrace stack
  | stray : Step [] .interpolationEnd []

variable {stack next : List Bracket} {tag : Tag} {tags front back : List Tag} {b : Bracket}

lemma step_of_after? (h : after? stack tag = some next) : Step stack tag next := by
  cases tag with
  | interpolationStart =>
    cases h
    exact .opens interpolation List.mem_cons_self
  | leftBrace =>
    cases h
    split_ifs with hm
    · exact .opens brace (List.mem_cons_of_mem _ hm)
    · exact .loose hm
  | rightBrace =>
    cases stack with
    | nil => cases h
    | cons b below =>
      cases b with
      | interpolation => cases h
      | brace =>
        cases h
        exact .closes brace next
  | interpolationEnd =>
    cases stack with
    | nil =>
      cases h
      exact .stray
    | cons b below =>
      cases b with
      | interpolation =>
        cases h
        exact .closes interpolation next
      | brace => cases h
  | _ =>
    cases h
    exact .silent stack (by decide)

lemma after?_eq_some_iff : after? stack tag = some next ↔ Step stack tag next := by
  refine ⟨step_of_after?, ?_⟩
  intro h
  cases h with
  | opens b hm =>
    cases b with
    | interpolation => rfl
    | brace => exact congrArg some (if_pos (List.mem_of_ne_of_mem (by decide) hm))
  | closes b stack => cases b <;> rfl
  | silent stack hs =>
    cases tag with
    | interpolationStart | interpolationEnd | leftBrace | rightBrace => exact absurd hs (by decide)
    | _ => rfl
  | loose hm => exact congrArg some (if_neg hm)
  | stray => rfl

lemma replay_cons (h : Step stack tag next) (tags : List Tag) :
    replay stack (tag :: tags) = replay next tags := by
  rw [replay, List.foldlM_cons, after?_eq_some_iff.mpr h]
  rfl

lemma replay_append (h : replay stack front = some next) (back : List Tag) :
    replay stack (front ++ back) = replay next back := by
  rw [replay] at h
  rw [replay, List.foldlM_append, h]
  rfl

lemma replay_concat (h : replay stack (tags ++ [tag]) = some next) :
    ∃ mid, replay stack tags = some mid ∧ Step mid tag next := by
  rw [replay, List.foldlM_append] at h
  obtain ⟨mid, hmid, hstep⟩ := Option.bind_eq_some_iff.mp h
  rw [List.foldlM_cons] at hstep
  obtain ⟨last, hlast, hnil⟩ := Option.bind_eq_some_iff.mp hstep
  cases hnil
  exact ⟨mid, hmid, step_of_after? hlast⟩

lemma Balanced.append (h : Balanced front) (hb : Balanced back) : Balanced (front ++ back) := by
  induction h with
  | nil => exact hb
  | silent hs _ ih => exact .silent hs ih
  | enclosed b hi _ _ ih =>
    rw [List.append_assoc]
    exact .enclosed b hi ih

lemma Balanced.replay_eq (h : Balanced tags) (hm : interpolation ∈ stack) :
    replay stack tags = some stack := by
  induction h generalizing stack with
  | nil => rfl
  | silent hs _ ih =>
    rw [replay_cons (.silent stack hs)]
    exact ih hm
  | enclosed b _ _ ihinner ih =>
    have hm' : interpolation ∈ b :: stack := List.mem_cons_of_mem b hm
    rw [List.cons_append, replay_cons (.opens b hm'), replay_append (ihinner hm'),
      replay_cons (.closes b stack)]
    exact ih hm

lemma exists_opener (h : replay [] tags = some (b :: stack)) :
    ∃ front back, tags = front ++ b.opener :: back ∧ replay [] front = some stack ∧
      interpolation ∈ b :: stack ∧ Balanced back := by
  -- a closer sends the search back to before its opener, so the induction is on the length
  induction hn : tags.length using Nat.strong_induction_on generalizing tags b stack with
  | h n ih =>
    subst hn
    rcases List.eq_nil_or_concat' tags with rfl | ⟨init, tag, rfl⟩
    · cases h
    obtain ⟨mid, hmid, hstep⟩ := replay_concat h
    have hlt : init.length < (init ++ [tag]).length := by simp
    cases hstep with
    | opens b hm => exact ⟨init, [], rfl, hmid, hm, .nil⟩
    | closes c =>
      obtain ⟨front, inner, rfl, hfront, -, hinner⟩ := ih _ hlt hmid rfl
      have hlt' : front.length < (front ++ c.opener :: inner ++ [c.closer]).length := by simp
      obtain ⟨front, back, rfl, hfront, hm, hback⟩ := ih _ hlt' hfront rfl
      refine ⟨front, back ++ (c.opener :: inner ++ c.closer :: []), ?_, hfront, hm, ?_⟩
      · simp
      · exact hback.append (.enclosed c hinner .nil)
    | silent _ hs =>
      obtain ⟨front, back, rfl, hfront, hm, hback⟩ := ih _ hlt hmid rfl
      refine ⟨front, back ++ [tag], ?_, hfront, hm, hback.append (.silent hs .nil)⟩
      simp
    | loose hn =>
      obtain ⟨front, back, -, -, hm, -⟩ := ih _ hlt hmid rfl
      exact absurd hm hn

lemma hasOpenBrace_iff (h : replay [] tags = some stack) :
    HasOpenBrace tags ↔ ∃ below, stack = brace :: below := by
  constructor
  · rintro ⟨front, back, below, rfl, hfront, hm, hback⟩
    have hm' : interpolation ∈ brace :: below := List.mem_cons_of_mem brace hm
    rw [replay_append hfront] at h
    have hopen : replay below (.leftBrace :: back) = replay (brace :: below) back :=
      replay_cons (.opens brace hm') back
    rw [hopen, hback.replay_eq hm'] at h
    cases h
    exact ⟨below, rfl⟩
  · rintro ⟨below, rfl⟩
    obtain ⟨front, back, ht, hfront, hm, hback⟩ := exists_opener h
    exact ⟨front, back, below, ht, hfront, List.mem_of_ne_of_mem (by decide) hm, hback⟩

end Bracket

namespace Nesting

def brackets : Nesting → List Bracket
  | [] => []
  | depth :: depths => List.replicate depth .brace ++ .interpolation :: brackets depths

lemma braces_unique {m n : Nat} {xs ys : List Bracket}
    (h : List.replicate m .brace ++ .interpolation :: xs = List.replicate n .brace ++ .interpolation :: ys) :
    m = n ∧ xs = ys := by
  induction m generalizing n with
  | zero =>
    cases n with
    | zero =>
      cases h
      exact ⟨rfl, rfl⟩
    | succ n => cases h
  | succ m ih =>
    cases n with
    | zero => cases h
    | succ n =>
      obtain ⟨rfl, hxs⟩ := ih (List.tail_eq_of_cons_eq h)
      exact ⟨rfl, hxs⟩

lemma brackets_injective : Function.Injective brackets := by
  intro nesting other h
  induction nesting generalizing other with
  | nil =>
    cases other with
    | nil => rfl
    | cons depth depths => exact absurd h.symm (by simp [brackets])
  | cons depth depths ih =>
    cases other with
    | nil => exact absurd h (by simp [brackets])
    | cons depth' depths' =>
      obtain ⟨rfl, hdepths⟩ := braces_unique h
      rw [ih hdepths]

lemma after?_brackets (nesting : Nesting) {tag : Tag} (h : tag ≠ .interpolationEnd) :
    Bracket.after? nesting.brackets (nesting.resolve tag).1 = some (nesting.resolve tag).2.brackets := by
  cases nesting with
  | nil =>
    cases tag with
    | interpolationEnd => exact absurd rfl h
    | _ => rfl
  | cons depth depths =>
    cases tag with
    | interpolationEnd => exact absurd rfl h
    | leftBrace => exact congrArg some (if_pos (List.mem_append_right _ List.mem_cons_self))
    | rightBrace => cases depth <;> rfl
    | _ => rfl

lemma resolve_rightBrace (nesting : Nesting) :
    ((nesting.resolve .rightBrace).1 = .rightBrace ∨ (nesting.resolve .rightBrace).1 = .interpolationEnd) ∧
      ((nesting.resolve .rightBrace).1 = .rightBrace ↔ ∃ below, nesting.brackets = .brace :: below) := by
  cases nesting with
  | nil => simp [resolve, brackets]
  | cons depth depths => cases depth <;> simp [resolve, brackets, List.replicate_succ]

end Nesting

lemma Token.tag_read_ne_interpolationEnd {bs : List UInt8} (h : Text.IsTail bs) :
    (read bs).tag ≠ .interpolationEnd := by
  have hshape := read_shape h
  generalize read bs = token at hshape
  intro he
  cases hshape with
  | quoted bs =>
    unfold quoted at he
    split at he <;> cases he
  | neutral _ hf _ =>
    cases he
    exact absurd hf (by decide)
  | _ => cases he

namespace Reader

variable {r last : Reader} {tokens : List Token}

lemma Run.replay_tags (h : Run r tokens last) (hv : r.Valid) :
    Bracket.replay r.nesting.brackets (tokens.map Token.tag) = some last.nesting.brackets := by
  induction h with
  | nil r => rfl
  | @cons r _ _ _ _ hn _ ih =>
    cases hv.next_eq.symm.trans hn
    have hstep := r.nesting.after?_brackets (Token.tag_read_ne_interpolationEnd hv.fits.isTail)
    rw [List.map_cons]
    exact (Bracket.replay_cons (Bracket.step_of_after? hstep) _).trans (ih hv.next_valid)

lemma Valid.next_closing (h : r.Valid) (hb : r.cursor.source[r.cursor.pos]? = some 0x7D) :
    ∃ after, r.next = .ok (⟨(r.nesting.resolve .rightBrace).1, 1⟩, after) := by
  obtain ⟨hlt, hget⟩ := List.getElem?_eq_some_iff.mp hb
  have hrest : r.scanner.rest = 0x7D :: r.cursor.source.drop (r.cursor.pos + 1) := by
    rw [← hget]
    exact List.drop_eq_getElem_cons hlt
  have hread : Token.read r.scanner.rest = ⟨.rightBrace, 1⟩ := by
    rw [hrest]
    rfl
  have htoken : r.scanner.next.1 = ⟨(r.nesting.resolve .rightBrace).1, 1⟩ := by
    change Token.mk (r.nesting.resolve (Token.read r.scanner.rest).tag).1
      (Token.read r.scanner.rest).length = _
    rw [hread]
  rw [← htoken]
  exact ⟨_, h.next_eq⟩

end Reader

/-- The tags read so far, replayed on a stack of brackets, give the nesting, whose counts stay in range. A
closing brace closes a brace if one is open in the innermost interpolation, and the interpolation if not. -/
theorem brace_tags_nest (text : String) (p : Nat) (h : (Text.bytes text).length < 2 ^ 32)
    (tokens : List Token) (r : Reader) (hrun : (Reader.ofCursor (.atOffset text p)).Run tokens r) :
    (∀ nesting : Nesting,
      Bracket.replay [] (tokens.map Token.tag) = some nesting.brackets ↔ r.nesting = nesting) ∧
    (∀ depth ∈ r.nesting, depth ≤ Offset.max) ∧
    (∃ token after, r.next = .ok (token, after)) ∧
    ((Text.bytes text)[r.cursor.pos]? = some 0x7D →
      ∃ tag after, r.next = .ok (⟨tag, 1⟩, after) ∧ (tag = .rightBrace ∨ tag = .interpolationEnd) ∧
        (tag = .rightBrace ↔ Bracket.HasOpenBrace (tokens.map Token.tag))) := by
  have hstart := Reader.valid_ofCursor h p
  obtain ⟨hv, hsource, -⟩ := hrun.valid hstart
  have hreplay : Bracket.replay [] (tokens.map Token.tag) = some r.nesting.brackets := hrun.replay_tags hstart
  refine ⟨?_, ?_, ⟨_, _, hv.next_eq⟩, ?_⟩
  · intro nesting
    rw [hreplay, Option.some_inj]
    exact Nesting.brackets_injective.eq_iff
  · intro depth hd
    have hcount := hv.counted depth hd
    have hinside := hv.fits.inside
    have hsmall := hv.fits.small
    omega
  · intro hb
    have hb' : r.cursor.source[r.cursor.pos]? = some 0x7D := by rwa [hsource]
    obtain ⟨after, hnext⟩ := hv.next_closing hb'
    obtain ⟨htag, hbrace⟩ := r.nesting.resolve_rightBrace
    refine ⟨_, after, hnext, htag, hbrace.trans ?_⟩
    exact (Bracket.hasOpenBrace_iff hreplay).symm

theorem open_brace_behind_inner_interpolation :
    (Text.bytes "é\x7d\x7b$\x7b\x7b\"\x7d\"$\x7ba\x7d\x7d").length < 2 ^ 32 ∧
      ∃ r after, (Reader.ofCursor (.atOffset "é\x7d\x7b$\x7b\x7b\"\x7d\"$\x7ba\x7d\x7d" 1)).Run
          [⟨.invalid, 1⟩, ⟨.interpolationEnd, 1⟩, ⟨.leftBrace, 1⟩, ⟨.interpolationStart, 2⟩, ⟨.leftBrace, 1⟩,
            ⟨.string, 3⟩, ⟨.interpolationStart, 2⟩, ⟨.name, 1⟩, ⟨.interpolationEnd, 1⟩] r ∧
        r.nesting = [1] ∧ r.next = .ok (⟨.rightBrace, 1⟩, after) ∧
        Bracket.HasOpenBrace [.invalid, .interpolationEnd, .leftBrace, .interpolationStart, .leftBrace,
          .string, .interpolationStart, .name, .interpolationEnd] := by
  have hl : (Text.bytes "é\x7d\x7b$\x7b\x7b\"\x7d\"$\x7ba\x7d\x7d").length < 2 ^ 32 := by
    have hsize : (Text.bytes "é\x7d\x7b$\x7b\x7b\"\x7d\"$\x7ba\x7d\x7d").length = 15 := by decide +kernel
    rw [hsize]
    decide
  have hv := Reader.valid_ofCursor hl 1
  obtain ⟨last, hall, -⟩ := hv.run
  have htokens : (Reader.ofCursor (.atOffset "é\x7d\x7b$\x7b\x7b\"\x7d\"$\x7ba\x7d\x7d" 1)).scanner.run.1 =
      [⟨.invalid, 1⟩, ⟨.interpolationEnd, 1⟩, ⟨.leftBrace, 1⟩, ⟨.interpolationStart, 2⟩, ⟨.leftBrace, 1⟩,
        ⟨.string, 3⟩, ⟨.interpolationStart, 2⟩, ⟨.name, 1⟩, ⟨.interpolationEnd, 1⟩] ++
      ⟨.rightBrace, 1⟩ :: [] := by
    decide +kernel
  rw [htokens] at hall
  obtain ⟨r, after, hrun, hnext, -⟩ := hall.split
  have hpos : 14 = r.cursor.pos := (hrun.valid hv).2.2
  obtain ⟨hnesting, -, -, hclosing⟩ := brace_tags_nest _ 1 hl _ r hrun
  have hbyte : (Text.bytes "é\x7d\x7b$\x7b\x7b\"\x7d\"$\x7ba\x7d\x7d")[r.cursor.pos]? = some 0x7D := by
    rw [← hpos]
    decide +kernel
  obtain ⟨tag, after', hnext', -, hiff⟩ := hclosing hbyte
  cases hnext.symm.trans hnext'
  exact ⟨hl, r, after, hrun, (hnesting [1]).mp rfl, hnext, hiff.mp rfl⟩

end HclLiteral
