import HclLiteral.Offset
import HclLiteral.Text.Utf8

/-! Reading a text by position, where any step may have no answer: a sum leaves its range, a byte or a slice is
not there, a loop gets no further. Such a reading ends with a `Trap`, and so does one that would go on with
something made up instead. -/

namespace HclLiteral

inductive Trap
  | overflow (kind : Overflow)
  | index
  | slice
  /-- Something made up would stand for what is not there. -/
  | standIn
  /-- A turn of a loop brings it no nearer to its end. -/
  | stuck
deriving DecidableEq, Repr

namespace Trap

instance : MonadLift (Except Overflow) (Except Trap) := ⟨Except.mapError overflow⟩

@[simp] theorem lift_ok {α : Type} (a : α) :
    (liftM (Except.ok a : Except Overflow α) : Except Trap α) = .ok a := rfl

def require {α : Type} (t : Trap) : Option α → Except Trap α
  | some a => .ok a
  | none => .error t

@[simp] theorem require_some {α : Type} (t : Trap) (a : α) : t.require (some a) = .ok a := rfl

/-- Turns of a loop until one ends it. Each has to lower the measure. -/
def loop {σ α : Type} (measure : σ → Nat) (turn : σ → Except Trap (α ⊕ σ)) (s : σ) : Except Trap α :=
  match turn s with
  | .error t => .error t
  | .ok (.inl a) => .ok a
  | .ok (.inr next) => if measure next < measure s then loop measure turn next else .error .stuck
termination_by measure s

variable {σ α : Type} {measure : σ → Nat} {turn : σ → Except Trap (α ⊕ σ)} {s next : σ} {a : α}

theorem loop_of_inl (h : turn s = .ok (.inl a)) : loop measure turn s = .ok a := by
  rw [loop, h]

theorem loop_of_inr (h : turn s = .ok (.inr next)) (hm : measure next < measure s) :
    loop measure turn s = loop measure turn next := by
  rw [loop, h]
  exact if_pos hm

theorem loop_eq (inv : σ → Prop) (result : σ → α)
    (step : ∀ s, inv s → turn s = .ok (.inl (result s)) ∨
      ∃ next, turn s = .ok (.inr next) ∧ measure next < measure s ∧ inv next ∧ result next = result s)
    (h : inv s) : loop measure turn s = .ok (result s) := by
  induction hk : measure s using Nat.strongRecOn generalizing s with
  | ind k ih =>
    rcases step s h with hdone | ⟨next, hmore, hless, hnext, hkept⟩
    · exact loop_of_inl hdone
    · rw [loop_of_inr hmore hless, ← hkept]
      exact ih _ (hk ▸ hless) hnext rfl

end Trap

namespace Offset

def maxPosition : Nat := 18446744073709551615

def addPositions (a b : Nat) : Except Overflow Nat :=
  if a + b ≤ maxPosition then .ok (a + b) else .error .add

/-- The offset of a position: its low 32 bits. -/
def ofPosition (n : Nat) : Nat := n % (max + 1)

theorem addPositions_eq_ok {a b : Nat} (h : a + b ≤ max) : addPositions a b = .ok (a + b) :=
  if_pos (Nat.le_trans h (by decide))

theorem ofPosition_eq {n : Nat} (h : n ≤ max) : ofPosition n = n := Nat.mod_eq_of_lt (Nat.lt_succ_of_le h)

end Offset

namespace Text

def bytesFrom? (bs : List UInt8) (pos : Nat) : Option (List UInt8) :=
  if pos ≤ bs.length then some (bs.drop pos) else none

def firstBytes? (bs : List UInt8) (count : Nat) : Option (List UInt8) :=
  if count ≤ bs.length then some (bs.take count) else none

theorem bytesFrom?_append (before after : List Char) :
    bytesFrom? (encode (before ++ after)) (size before) = some (encode after) := by
  rw [bytesFrom?, encode_append, ← length_encode, List.length_append, if_pos (Nat.le_add_right _ _), List.drop_left]

def charsFrom? (cs : List Char) (pos : Nat) : Option (List Char) := (cut? cs pos).map (·.2)

theorem charsFrom?_append (before after : List Char) :
    charsFrom? (before ++ after) (size before) = some after := by
  rw [charsFrom?, cut?_append]
  rfl

end Text

end HclLiteral
