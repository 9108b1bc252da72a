namespace HclLiteral

inductive Overflow
  | add
  | subtract
deriving DecidableEq, Repr

def Overflow.message : Overflow → String
  | .add => "attempt to add with overflow"
  | .subtract => "attempt to subtract with overflow"

namespace Offset

def max : Nat := 4294967295

def add (a b : Nat) : Except Overflow Nat :=
  if a + b ≤ max then .ok (a + b) else .error .add

def sub (a b : Nat) : Except Overflow Nat :=
  if b ≤ a then .ok (a - b) else .error .subtract

def addSaturating (a b : Nat) : Nat := min (a + b) max

theorem add_eq_ok {a b : Nat} (h : a + b ≤ max) : add a b = .ok (a + b) := if_pos h

theorem sub_eq_ok {a b : Nat} (h : b ≤ a) : sub a b = .ok (a - b) := if_pos h

theorem addSaturating_eq {a b : Nat} (h : a + b ≤ max) : addSaturating a b = a + b :=
  Nat.min_eq_left h

end Offset

end HclLiteral
