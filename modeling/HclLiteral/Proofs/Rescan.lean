import HclLiteral.Proofs.ScanTrace
import HclLiteral.Proofs.SpanLayout

namespace HclLiteral

lemma Quoted.run_take_self {frames : List Frame} {bs : List UInt8} {n : Nat} (h : run frames bs = some n) :
    run frames (bs.take n) = some n := by
  fun_induction run frames bs generalizing n with
  | case1 bs =>
    cases h
    exact run_nil _
  | case2 => cases h
  | case3 frame below b bs ih =>
    obtain ⟨m, hm, rfl⟩ := Option.map_eq_some_iff.mp h
    exact congrArg (Option.map (· + 1)) (ih hm)

namespace Interpolation

inductive IsWhole : List UInt8 → Prop
  | closed {bs : List UInt8} :
      Quoted.run [.interpolation 0] bs = some bs.length → IsWhole (0x24 :: 0x7B :: bs)
  | unclosed {bs : List UInt8} : Quoted.run [.interpolation 0] bs = none → IsWhole (0x24 :: 0x7B :: bs)

variable {pos : Nat} {bs : List UInt8} {as : List Attempt} {a : Attempt} {s : Span} {text : String}

lemma Scanned.exists_whole (h : Scanned pos bs as) (ha : a ∈ as) (hs : a.span? = some s) :
    ∃ front found back, bs = front ++ found ++ back ∧ pos + front.length = s.start ∧
      s.start + found.length = s.stop ∧ IsWhole found := by
  induction h with
  | done => cases ha
  | @skip pos b bs as _ _ ih =>
    obtain ⟨front, found, back, rfl, hstart, hstop, hw⟩ := ih ha
    refine ⟨b :: front, found, back, rfl, ?_, hstop, hw⟩
    rw [List.length_cons]
    omega
  | @closed pos n bs as hr _ ih =>
    have hle := Quoted.run_le hr
    have hn : (bs.take n).length = n := List.length_take_of_le hle
    rcases List.mem_cons.mp ha with rfl | ha
    · cases hs
      refine ⟨[], 0x24 :: 0x7B :: bs.take n, bs.drop n, by simp, rfl, ?_, .closed ?_⟩
      · simp only [List.length_cons, hn]
        omega
      · rw [hn]
        exact Quoted.run_take_self hr
    · obtain ⟨front, found, back, hb, hstart, hstop, hw⟩ := ih ha
      refine ⟨0x24 :: 0x7B :: bs.take n ++ front, found, back, ?_, ?_, hstop, hw⟩
      · have hsplit := List.take_append_drop n bs
        rw [hb] at hsplit
        simpa using hsplit.symm
      · simp only [List.length_append, List.length_cons, hn]
        omega
  | unterminated hr =>
    obtain rfl := List.mem_singleton.mp ha
    cases hs
    exact ⟨[], _, [], by simp, rfl, rfl, .unclosed hr⟩

lemma exists_whole_of_mem_spans (hs : s ∈ spans text) :
    ∃ front found back, Text.bytes text = front ++ found ++ back ∧ front.length = s.start ∧
      s.start + found.length = s.stop ∧ IsWhole found := by
  rw [spans_eq_filterMap] at hs
  obtain ⟨a, ha, hspan⟩ := List.mem_filterMap.mp hs
  cases hf : freeOpener? false (Text.bytes text) with
  | none => simp [attempts, hf] at ha
  | some first =>
    have hscan := attempts_of_freeOpener? hf (Text.isTail_bytes text)
    obtain ⟨front, found, back, hb, hstart, hstop, hw⟩ := hscan.exists_whole ha hspan
    refine ⟨(Text.bytes text).take first ++ front, found, back, ?_, ?_, hstop, hw⟩
    · have hsplit := List.take_append_drop first (Text.bytes text)
      rw [hb] at hsplit
      simpa using hsplit.symm
    · rw [List.length_append, List.length_take_of_le (freeOpener?_le hf), hstart]

lemma scanBytes_of_opens (h : opens bs = true) (gapLimit : Option Nat) :
    scanBytes gapLimit bs = spansFrom gapLimit 0 bs := by
  obtain ⟨rest, rfl⟩ := opens_iff.mp h
  rfl

lemma IsWhole.opens (h : IsWhole bs) : opens bs = true := by
  cases h <;> rfl

lemma IsWhole.spans_eq (h : IsWhole (Text.bytes text)) : spans text = [⟨0, (Text.bytes text).length⟩] := by
  have hspans : spans text = spansFrom none 0 (Text.bytes text) := scanBytes_of_opens h.opens none
  rw [hspans, spansFrom_eq (Text.isTail_bytes text) h.opens]
  generalize Text.bytes text = bs at h ⊢
  cases h with
  | @closed bs hr =>
    have hstop : 0 + 2 + bs.length = (0x24 :: 0x7B :: bs).length := by
      simp only [List.length_cons]
      omega
    simp only [List.drop_succ_cons, List.drop_zero, hr, List.drop_length, hstop]
    rfl
  | unclosed hr => simp only [List.drop_succ_cons, List.drop_zero, hr, Nat.zero_add]

theorem spans_of_slice_of_span (text : String) (s : Span) (hs : s ∈ spans text) :
    ∃ slice n, s.slice? text = some slice ∧ s.length = .ok n ∧ spans slice = [⟨0, n⟩] := by
  obtain ⟨front, found, back, hb, hstart, hstop, hw⟩ := exists_whole_of_mem_spans hs
  obtain ⟨pos, hlayout, -⟩ := spans_layout text
  obtain ⟨before, inner, after, ht, hbefore, hinner⟩ := (hlayout.covers s hs).2
  -- the characters of the slice are the bytes found, since both lie between the same offsets
  have hfound : found = Text.encode ('$' :: '{' :: inner) := by
    rw [Text.bytes, ht, Text.encode_append, Text.encode_append] at hb
    have hlength : (Text.encode before ++ Text.encode ('$' :: '{' :: inner)).length =
        (front ++ found).length := by
      rw [← Text.encode_append, Text.length_encode, hinner, List.length_append, hstart, hstop]
    obtain ⟨hfront, -⟩ := List.append_inj hb hlength
    exact (List.append_inj hfront (by rw [Text.length_encode, hbefore, hstart])).2.symm
  have hbytes : Text.bytes (String.ofList ('$' :: '{' :: inner)) = found := by
    rw [Text.bytes, String.toList_ofList, hfound]
  refine ⟨String.ofList ('$' :: '{' :: inner), found.length, ?_, ?_, ?_⟩
  · apply Option.map_eq_some_iff.mpr
    refine ⟨_, Text.slice?_eq_some_iff.mpr ⟨before, after, ?_, hbefore, ?_⟩, rfl⟩
    · rw [ht]
    · rw [← hinner, Text.size_append, hbefore]
  · rw [Span.length, Offset.sub_eq_ok (by omega), ← hstop, Nat.add_sub_cancel_left]
  · rw [← hbytes]
    apply IsWhole.spans_eq
    rwa [hbytes]

theorem spans_of_slice_behind_dollar :
    (⟨6, 12⟩ ∈ spans "$\x7bé\x7d$$\x7b\"\x7d\"\x7d$\x7bb" ∧
      Span.slice? ⟨6, 12⟩ "$\x7bé\x7d$$\x7b\"\x7d\"\x7d$\x7bb" = some "$\x7b\"\x7d\"\x7d" ∧
      spans "$\x7b\"\x7d\"\x7d" = [⟨0, 6⟩]) ∧
    ⟨12, 15⟩ ∈ spans "$\x7bé\x7d$$\x7b\"\x7d\"\x7d$\x7bb" ∧
      Span.slice? ⟨12, 15⟩ "$\x7bé\x7d$$\x7b\"\x7d\"\x7d$\x7bb" = some "$\x7bb" ∧
      spans "$\x7bb" = [⟨0, 3⟩] := by
  have hclosed : ⟨6, 12⟩ ∈ spans "$\x7bé\x7d$$\x7b\"\x7d\"\x7d$\x7bb" := by decide +kernel
  have hopen : ⟨12, 15⟩ ∈ spans "$\x7bé\x7d$$\x7b\"\x7d\"\x7d$\x7bb" := by decide +kernel
  have hs : Span.slice? ⟨6, 12⟩ "$\x7bé\x7d$$\x7b\"\x7d\"\x7d$\x7bb" = some "$\x7b\"\x7d\"\x7d" := by
    decide +kernel
  have ht : Span.slice? ⟨12, 15⟩ "$\x7bé\x7d$$\x7b\"\x7d\"\x7d$\x7bb" = some "$\x7bb" := by decide +kernel
  refine ⟨⟨hclosed, hs, ?_⟩, hopen, ht, ?_⟩
  · obtain ⟨slice, n, hslice, hn, hspans⟩ := spans_of_slice_of_span _ _ hclosed
    obtain rfl := Option.some.inj (hs.symm.trans hslice)
    cases hn
    exact hspans
  · obtain ⟨slice, n, hslice, hn, hspans⟩ := spans_of_slice_of_span _ _ hopen
    obtain rfl := Option.some.inj (ht.symm.trans hslice)
    cases hn
    exact hspans

end Interpolation

end HclLiteral
