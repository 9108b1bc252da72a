import HclLiteral.Text.Basic

/-! Number literals at the start of some bytes. A hexadecimal mark, a point and an exponent mark each
belong to the number only if a digit follows. -/

namespace HclLiteral.Number

open Byte

def digits (bs : List UInt8) : Nat := (bs.takeWhile isDigit).length

def fraction : List UInt8 → Nat
  | [] => 0
  | b :: bs => if b = 0x2E ∧ 0 < digits bs then 1 + digits bs else 0

def sign : List UInt8 → Nat
  | [] => 0
  | b :: _ => if b = 0x2B ∨ b = 0x2D then 1 else 0

def exponent : List UInt8 → Nat
  | [] => 0
  | b :: bs =>
    let tail := bs.drop (sign bs)
    if (b = 0x65 ∨ b = 0x45) ∧ 0 < digits tail then 1 + sign bs + digits tail else 0

def decimal (bs : List UInt8) : Nat :=
  let whole := digits bs
  let point := whole + fraction (bs.drop whole)
  point + exponent (bs.drop point)

def hexadecimal : List UInt8 → Nat
  | zero :: letter :: bs =>
    let run := (bs.takeWhile isHexDigit).length
    if zero = 0x30 ∧ (letter = 0x78 ∨ letter = 0x58) ∧ 0 < run then 2 + run else 0
  | _ => 0

def length (bs : List UInt8) : Nat :=
  if 0 < hexadecimal bs then hexadecimal bs else decimal bs

theorem length_pos {b : UInt8} (bs : List UInt8) (h : isDigit b = true) : 0 < length (b :: bs) := by
  unfold length
  split
  · assumption
  · simp only [decimal, digits, List.takeWhile_cons, h, if_true, List.length_cons]
    omega

theorem digits_le (bs : List UInt8) : digits bs ≤ bs.length :=
  (List.takeWhile_sublist _).length_le

theorem fraction_le (bs : List UInt8) : fraction bs ≤ bs.length := by
  cases bs with
  | nil => exact Nat.le_refl 0
  | cons b bs =>
    have := digits_le bs
    simp only [fraction, List.length_cons]
    split <;> omega

theorem sign_le (bs : List UInt8) : sign bs ≤ bs.length := by
  cases bs with
  | nil => exact Nat.le_refl 0
  | cons b bs =>
    simp only [sign, List.length_cons]
    split <;> omega

theorem exponent_le (bs : List UInt8) : exponent bs ≤ bs.length := by
  cases bs with
  | nil => exact Nat.le_refl 0
  | cons b bs =>
    have hs := sign_le bs
    have hd := digits_le (bs.drop (sign bs))
    simp only [List.length_drop] at hd
    simp only [exponent, List.length_cons]
    split <;> omega

theorem decimal_le (bs : List UInt8) : decimal bs ≤ bs.length := by
  have hd := digits_le bs
  have hf := fraction_le (bs.drop (digits bs))
  have he := exponent_le (bs.drop (digits bs + fraction (bs.drop (digits bs))))
  simp only [List.length_drop] at hf he
  simp only [decimal]
  omega

theorem hexadecimal_le (bs : List UInt8) : hexadecimal bs ≤ bs.length := by
  unfold hexadecimal
  split
  · rename_i zero letter bs
    have : (bs.takeWhile isHexDigit).length ≤ bs.length := (List.takeWhile_sublist _).length_le
    simp only [List.length_cons]
    split <;> omega
  · exact Nat.zero_le _

theorem length_le (bs : List UInt8) : length bs ≤ bs.length := by
  unfold length
  split
  · exact hexadecimal_le bs
  · exact decimal_le bs

end HclLiteral.Number
