import HclLiteral.Text.Basic
import HclLiteral.Token.Number
import HclLiteral.Token.Quoted
import HclLiteral.Token.Tag

namespace HclLiteral

structure Token where
  tag : Tag
  length : Nat
deriving DecidableEq, Repr

namespace Token

open Byte

/-- The tags read by their spelling, a longer one before any that begins it. -/
def spelled : List Tag :=
  [.interpolationStart, .notEqual, .equal, .lessEqual, .greaterEqual, .logicalAnd, .logicalOr,
   .dollar, .leftBrace, .rightBrace, .plus, .minus, .times, .divide, .modulo, .logicalNot, .less,
   .greater, .question, .colon, .dot, .comma, .leftParen, .rightParen, .leftBracket, .rightBracket]

def spelled? (bs : List UInt8) : Option Tag := spelled.find? fun tag => tag.bytes.isPrefixOf bs

def quoted (bs : List UInt8) : Token :=
  match Quoted.length? bs with
  | some n => ⟨.string, n + 1⟩
  | none => ⟨.openString, bs.length + 1⟩

/-- The token in front. A closing brace is read as `rightBrace`. -/
def read : List UInt8 → Token
  | [] => ⟨.endOfText, 0⟩
  | b :: bs =>
    if b = 0 then ⟨.nul, 1⟩
    else if isBlank b then ⟨.blank, (bs.takeWhile isBlank).length + 1⟩
    else if isNameStart b then ⟨.name, (bs.takeWhile isNameContinue).length + 1⟩
    else if isDigit b then ⟨.number, Number.length (b :: bs)⟩
    else if b = 0x22 then quoted bs
    else
      match spelled? (b :: bs) with
      | some tag => ⟨tag, tag.bytes.length⟩
      | none => ⟨.invalid, ((b :: bs).take (Text.charWidth b)).length⟩

theorem quoted_length_pos (bs : List UInt8) : 0 < (quoted bs).length := by
  unfold quoted
  split <;> exact Nat.succ_pos _

theorem quoted_length_le (bs : List UInt8) : (quoted bs).length ≤ bs.length + 1 := by
  unfold quoted
  split
  · rename_i n h
    exact Nat.succ_le_succ (Quoted.run_le h)
  · exact Nat.le_refl _

theorem bytes_ne_nil_of_mem_spelled : ∀ tag ∈ spelled, tag.bytes ≠ [] := by decide

theorem spelled?_length_pos {bs : List UInt8} {tag : Tag} (h : spelled? bs = some tag) :
    0 < tag.bytes.length :=
  List.length_pos_iff.mpr (bytes_ne_nil_of_mem_spelled tag (List.mem_of_find?_eq_some h))

theorem spelled?_length_le {bs : List UInt8} {tag : Tag} (h : spelled? bs = some tag) :
    tag.bytes.length ≤ bs.length := by
  have hp := List.find?_some h
  exact (List.isPrefixOf_iff_prefix.mp hp).length_le

theorem read_length_pos (b : UInt8) (bs : List UInt8) : 0 < (read (b :: bs)).length := by
  simp only [read]
  repeat' split
  · exact Nat.one_pos
  · exact Nat.succ_pos _
  · exact Nat.succ_pos _
  · exact Number.length_pos bs (by assumption)
  · exact quoted_length_pos bs
  · exact spelled?_length_pos (by assumption)
  · rw [List.length_take]
    exact Nat.lt_min.mpr ⟨Text.charWidth_pos b, Nat.succ_pos _⟩

theorem read_length_le (bs : List UInt8) : (read bs).length ≤ bs.length := by
  cases bs with
  | nil => exact Nat.le_refl 0
  | cons b bs =>
    simp only [read]
    repeat' split
    · exact Nat.succ_le_succ (Nat.zero_le _)
    · exact Nat.succ_le_succ (List.takeWhile_sublist _).length_le
    · exact Nat.succ_le_succ (List.takeWhile_sublist _).length_le
    · exact Number.length_le (b :: bs)
    · exact quoted_length_le bs
    · exact spelled?_length_le (by assumption)
    · exact (List.take_sublist _ _).length_le

end Token

end HclLiteral
