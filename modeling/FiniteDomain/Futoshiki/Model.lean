import FiniteDomain.Constraint.Table
import FiniteDomain.Futoshiki.Board.Basic
import FiniteDomain.Journal.Basic
/-!
# Boards as constraint networks

Every cell is a variable, in the order of the cells. Rows and columns take different values, and
the relations of the board become inequalities. A model has the rows and columns either pair by
pair or as one constraint each; both have the same solutions.
-/
namespace FiniteDomain

/-- Adds a constraint to a network and records that it was added. -/
def Network.post (net : Network) (c : Constraint) (journal : Journal) :
    Except ModelError (ConstraintId × Network × Journal) := do
  let (id, net) ← net.addConstraint c
  return (id, net, journal.record (.constraintAdded c.name c.numTuples))

namespace Futoshiki

/-- How the rows and columns of a board are modelled. -/
inductive ModelKind where
  /-- An inequality for every two cells of a row or column. -/
  | binary
  /-- One constraint per row and per column. -/
  | nary
deriving DecidableEq, Inhabited

namespace ModelKind

def all : List ModelKind := [binary, nary]

def label : ModelKind → String
  | binary => "binary"
  | nary => "nary"

/-- The name that log records use. -/
def title : ModelKind → String
  | binary => "Binary"
  | nary => "Nary"

end ModelKind

inductive BuildError where
  | model (e : ModelError)
  | breach (b : Breach)
deriving DecidableEq

namespace Model

def cellVariable (size : Nat) (p : Position) : VariableId := ⟨p.row * size + p.col⟩

def cellName (p : Position) : String := s!"cell({p.row},{p.col})"

/-- The values of a cell: the given one, or one up to the size. -/
def cellDomain (b : Board) (p : Position) : List Int :=
  match b.cell p with
  | some value => [value]
  | none => (List.range b.size).map fun i => Int.ofNat i + 1

/-- The network of the cells alone. -/
def addCells (b : Board) : Network → List Position → Except ModelError Network
  | net, [] => .ok net
  | net, p :: ps => do
    let (_, net) ← net.addVariable (cellName p) (cellDomain b p)
    addCells b net ps

def row (size i : Nat) : List Position := (List.range size).map fun j => ⟨i, j⟩

def column (size i : Nat) : List Position := (List.range size).map fun j => ⟨j, i⟩

/-- Every two items of a list, in order. -/
def pairs {α : Type} : List α → List (α × α)
  | [] => []
  | a :: as => as.map (a, ·) ++ pairs as

/-- The constraints that keep the cells of one row or column apart. -/
def lineConstraints (kind : ModelKind) (net : Network) (name : String) (line : List VariableId) :
    Except Breach (List Constraint) :=
  match kind with
  | .binary => (pairs line).mapM fun (x, y) => Constraint.notEquals net x y
  | .nary => return [← Constraint.allDifferent net name line]

/-- The constraints of a board: those of its rows, of its columns, and its inequalities. -/
def constraints (b : Board) (kind : ModelKind) (net : Network) :
    Except Breach (List Constraint) := do
  let indices := List.range b.size
  let rows ← indices.mapM fun i =>
    lineConstraints kind net s!"all_different row {i}" ((row b.size i).map (cellVariable b.size))
  let columns ← indices.mapM fun i =>
    lineConstraints kind net s!"all_different column {i}"
      ((column b.size i).map (cellVariable b.size))
  let inequalities ← b.inequalities.mapM fun (smaller, larger) =>
    Constraint.lessThan net (cellVariable b.size smaller) (cellVariable b.size larger)
  return rows.flatten ++ columns.flatten ++ inequalities

def postAll : Network → Journal → List Constraint → Except ModelError (Network × Journal)
  | net, journal, [] => .ok (net, journal)
  | net, journal, c :: cs => do
    let (_, net, journal) ← net.post c journal
    postAll net journal cs

/-- The network of a board, with a record of its making. -/
def build (b : Board) (kind : ModelKind) (detail : Option Level) :
    Except BuildError (Network × Journal) := do
  let cells ← (addCells b .empty (Board.positions b.size)).mapError .model
  let constraints ← (constraints b kind cells).mapError .breach
  let (network, journal) ← (postAll cells (.empty detail) constraints).mapError .model
  return (network,
    journal.record (.modelBuilt kind.title network.numVariables network.numConstraints))

/-- The value of a solution at a position. -/
def value (size : Nat) (solution : Solution) (p : Position) : Int :=
  (solution.get? (cellVariable size p)).getD 0

end Model

end Futoshiki

end FiniteDomain
