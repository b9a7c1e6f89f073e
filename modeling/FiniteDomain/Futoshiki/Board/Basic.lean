/-!
# Futoshiki boards

A board of size `n` has `n` rows of `n` cells, some with a given value, and between neighbouring
cells it may say which is the smaller. The same signs serve for reading and for writing this.
-/
namespace FiniteDomain.Futoshiki

/-- How two neighbours relate, read from the first (left or upper) to the second. -/
inductive Relation where
  | less | greater
deriving DecidableEq

/-- Whether two neighbours lie side by side or one below the other. -/
inductive Direction where
  | across | down
deriving DecidableEq

/-- The sign between two neighbours; a point says nothing about them. -/
def sign : Direction → Option Relation → Char
  | _, none => '.'
  | .across, some .less => '<'
  | .across, some .greater => '>'
  | .down, some .less => '^'
  | .down, some .greater => 'v'

/-- The relation that a token stands for. -/
def readSign (d : Direction) (token : List Char) : Option (Option Relation) :=
  [none, some Relation.less, some .greater].find? fun r => token = [sign d r]

theorem readSign_sign (d : Direction) (r : Option Relation) : readSign d [sign d r] = some r := by
  cases d <;> rcases r with _ | _ | _ <;> rfl

structure Position where
  row : Nat
  col : Nat
deriving DecidableEq

structure Board where
  size : Nat
  /-- The given values row by row. -/
  cells : List (List (Option Int))
  /-- Row by row what stands between each cell and its right neighbour. -/
  across : List (List (Option Relation))
  /-- Row by row what stands between each cell and its lower neighbour. -/
  down : List (List (Option Relation))
deriving DecidableEq

/-- The entry of a table of optional entries, if there is one. -/
def tableEntry {α : Type} (table : List (List (Option α))) (p : Position) : Option α :=
  ((table[p.row]?.getD [])[p.col]?).join

namespace Board

def cell (b : Board) (p : Position) : Option Int := tableEntry b.cells p

/-- What stands between the cell at `p` and its neighbour in a direction. -/
def relation (b : Board) (d : Direction) (p : Position) : Option Relation :=
  match d with
  | .across => tableEntry b.across p
  | .down => tableEntry b.down p

def positions (size : Nat) : List Position :=
  (List.range size).flatMap fun row => (List.range size).map fun col => ⟨row, col⟩

def neighbour (p : Position) : Direction → Position
  | .across => ⟨p.row, p.col + 1⟩
  | .down => ⟨p.row + 1, p.col⟩

/-- The smaller and the larger position of a relation. -/
def ordered (r : Relation) (first second : Position) : Position × Position :=
  match r with
  | .less => (first, second)
  | .greater => (second, first)

/-- The relations of the board as a smaller and a larger position, cell by cell, the one to the
right neighbour before the one to the lower neighbour. -/
def inequalities (b : Board) : List (Position × Position) :=
  (positions b.size).flatMap fun p =>
    [Direction.across, .down].filterMap fun d =>
      (b.relation d p).map fun r => ordered r p (neighbour p d)

end Board

end FiniteDomain.Futoshiki
