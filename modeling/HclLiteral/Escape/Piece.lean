import HclLiteral.Escape.Basic
import HclLiteral.Text.Basic
import HclLiteral.Text.Utf8

namespace HclLiteral.Escape

inductive Piece
  | verbatim (source : List Char)
  | escape (source : List Char) (meaning : Char)
  | malformed (source : List Char) (fault : Fault)
deriving DecidableEq, Repr

namespace Piece

def source : Piece → List Char
  | verbatim source | escape source _ | malformed source _ => source

def value : Piece → List Char
  | verbatim source | malformed source _ => source
  | escape _ meaning => [meaning]

/-- The source offset of each byte of the value of a piece that starts at `start`: its own for
text kept as it is, that of the backslash for an escape. -/
def offsets (start : Nat) : Piece → List Nat
  | verbatim source | malformed source _ => List.range' start (Text.size source)
  | escape _ meaning => List.replicate meaning.utf8Size start

def read (interpolations : Bool) (c : Char) (cs : List Char) : Piece :=
  if interpolations && Braces.opens (c :: cs) then .verbatim (Braces.region (c :: cs))
  else if c = '\\' then
    match Escape.read cs with
    | .ok reading => .escape (c :: cs.take reading.length) reading.meaning
    | .error fault => .malformed (c :: cs.take 1) fault
  else .verbatim [c]

theorem read_source_pos (interpolations : Bool) (c : Char) (cs : List Char) :
    0 < (read interpolations c cs).source.length := by
  unfold read
  repeat' split
  · rw [source, Braces.region, Nat.add_comm]
    exact Nat.succ_pos _
  all_goals exact Nat.succ_pos _

end Piece

def pieces (interpolations : Bool) : List Char → List Piece
  | [] => []
  | c :: cs =>
    Piece.read interpolations c cs ::
      pieces interpolations ((c :: cs).drop (Piece.read interpolations c cs).source.length)
termination_by cs => cs.length
decreasing_by
  have := Piece.read_source_pos interpolations c cs
  simp only [List.length_drop, List.length_cons]
  omega

end HclLiteral.Escape
