namespace HclLiteral.Text

def encode (cs : List Char) : List UInt8 := cs.flatMap String.utf8EncodeChar

def bytes (text : String) : List UInt8 := encode text.toList

def size : List Char → Nat
  | [] => 0
  | c :: cs => c.utf8Size + size cs

/-- The characters before and after a byte offset; none if it is inside a character or past the end. -/
def cut? : List Char → Nat → Option (List Char × List Char)
  | cs, 0 => some ([], cs)
  | [], _ + 1 => none
  | c :: cs, n + 1 =>
    if c.utf8Size ≤ n + 1 then
      (cut? cs (n + 1 - c.utf8Size)).map fun halves => (c :: halves.1, halves.2)
    else none

def IsBoundary (cs : List Char) (n : Nat) : Prop := ∃ halves, cut? cs n = some halves

def slice? (cs : List Char) (start stop : Nat) : Option (List Char) :=
  if stop < start then none
  else do
    let (_, after) ← cut? cs start
    let (between, _) ← cut? after (stop - start)
    return between

/-- The width of the character that a byte leads; 1 for a byte that leads none. -/
def charWidth (b : UInt8) : Nat :=
  if 0xC0 ≤ b && b ≤ 0xDF then 2
  else if 0xE0 ≤ b && b ≤ 0xEF then 3
  else if 0xF0 ≤ b && b ≤ 0xF7 then 4
  else 1

@[simp] theorem encode_nil : encode [] = [] := rfl

@[simp] theorem encode_cons (c : Char) (cs : List Char) :
    encode (c :: cs) = String.utf8EncodeChar c ++ encode cs := rfl

@[simp] theorem encode_append (cs ds : List Char) : encode (cs ++ ds) = encode cs ++ encode ds := by
  simp [encode]

@[simp] theorem size_nil : size [] = 0 := rfl

@[simp] theorem size_cons (c : Char) (cs : List Char) : size (c :: cs) = c.utf8Size + size cs := rfl

@[simp] theorem size_append (cs ds : List Char) : size (cs ++ ds) = size cs + size ds := by
  induction cs with
  | nil => simp
  | cons c cs ih => simp [ih, Nat.add_assoc]

@[simp] theorem length_encode (cs : List Char) : (encode cs).length = size cs := by
  induction cs with
  | nil => rfl
  | cons c cs ih => simp [ih]

theorem charWidth_pos (b : UInt8) : 0 < charWidth b := by
  unfold charWidth
  repeat' split
  all_goals decide

theorem cut?_eq_some {cs : List Char} {n : Nat} {halves : List Char × List Char}
    (h : cut? cs n = some halves) : cs = halves.1 ++ halves.2 ∧ size halves.1 = n := by
  fun_induction cut? cs n generalizing halves with
  | case1 cs => cases h; simp
  | case2 => cases h
  | case3 c cs n hc ih =>
    obtain ⟨tail, ht, rfl⟩ := Option.map_eq_some_iff.mp h
    obtain ⟨rfl, hs⟩ := ih ht
    simp only [List.cons_append, size_cons, hs, true_and]
    omega
  | case4 => cases h

theorem cut?_append (cs ds : List Char) : cut? (cs ++ ds) (size cs) = some (cs, ds) := by
  induction cs with
  | nil => cases ds <;> rfl
  | cons c cs ih =>
    obtain ⟨k, hk⟩ : ∃ k, c.utf8Size + size cs = k + 1 :=
      ⟨c.utf8Size + size cs - 1, by have := c.utf8Size_pos; omega⟩
    have hle : c.utf8Size ≤ k + 1 := by omega
    have hsub : k + 1 - c.utf8Size = size cs := by omega
    simp only [List.cons_append, size_cons, hk, cut?, if_pos hle, hsub, ih, Option.map_some]

theorem slice?_append (before between after : List Char) :
    slice? (before ++ between ++ after) (size before) (size before + size between) = some between := by
  rw [slice?, if_neg (by omega), List.append_assoc, cut?_append]
  simp [cut?_append]

end HclLiteral.Text
