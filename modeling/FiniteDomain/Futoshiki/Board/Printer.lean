import FiniteDomain.Futoshiki.Board.Basic
import FiniteDomain.Text.Decimal
/-!
# Writing boards

A board is written with a value in every cell, in the format that is read.
-/
namespace FiniteDomain.Futoshiki.Board

/-- The rest of a line of cells from column `col` on: each value after the sign left of it. -/
def renderAfter (b : Board) (value : Position → Int) (row : Nat) : List Nat → List Char
  | [] => []
  | col :: cols =>
    [' ', sign .across (b.relation .across ⟨row, col⟩), ' '] ++
      Text.intDigits (value ⟨row, col + 1⟩) ++ renderAfter b value row cols

/-- A line of cells. -/
def renderCells (b : Board) (value : Position → Int) (row : Nat) : List Char :=
  if b.size = 0 then []
  else Text.intDigits (value ⟨row, 0⟩) ++ renderAfter b value row (List.range (b.size - 1))

/-- The line of relations between a row and the next. -/
def renderDown (b : Board) (row : Nat) : List Char :=
  [' ', ' ', ' '].intercalate
    ((List.range b.size).map fun col => [sign .down (b.relation .down ⟨row, col⟩)])

/-- The lines of the board with the given values in its cells. -/
def renderLines (b : Board) (value : Position → Int) : List (List Char) :=
  (List.range b.size).flatMap fun row =>
    if row + 1 < b.size then [b.renderCells value row, b.renderDown row]
    else [b.renderCells value row]

def render (b : Board) (value : Position → Int) : String :=
  String.ofList ((b.renderLines value).flatMap (· ++ ['\n']))

end FiniteDomain.Futoshiki.Board
