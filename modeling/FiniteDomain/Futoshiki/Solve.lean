import FiniteDomain.Futoshiki.Report
/-!
# Solving boards

The text of a board is read, the board is modelled, and its network is searched.
-/
namespace FiniteDomain.Futoshiki

/-- What there is to do with a board. -/
structure Task (τ : Type) where
  options : Options
  kind : ModelKind
  /-- Asks for every solution, not for the first one only. -/
  allSolutions : Bool
  /-- Asks for the first solutions, up to a number. -/
  limit : Option Nat
  condition : τ

variable {τ : Type} [Termination τ]

/-- Searches the network of a board as the task asks. -/
def searchBoard (task : Task τ) (b : Board) (solver : Solver) (detail : Option Level) :
    Except Breach (List Line × Solver) :=
  if task.allSolutions || task.limit.isSome then do
    let (e, run) ← solver.enumerate task.condition detail task.limit
    return (entryLines b run.journal ++ enumerationVerdict e, run.solver)
  else do
    let (verdict, run) ← solver.satisfy task.condition detail
    return (eventLines run.journal ++ verdictLines b verdict, run.solver)

/-- Models a board and searches its network. -/
def solveBoard (task : Task τ) (b : Board) (detail : Option Level) : Report :=
  let read := (Journal.empty detail).record (.boardParsed b.size)
  match Model.build b task.kind detail with
  | .error e => ⟨eventLines read, .error (.ofBuildError e)⟩
  | .ok (network, built) =>
    let before := eventLines (read.append (built.append (Solver.remarks network detail)))
    match searchBoard task b (.ofNetwork network task.options) detail with
    | .error e => ⟨before, .error (.breach e)⟩
    | .ok (lines, solver) => ⟨before ++ lines, .ok solver⟩

/-- Reads a board and solves it. -/
def solveText (task : Task τ) (text : String) (detail : Option Level) : Report :=
  match Board.parse text with
  | .error e => ⟨[], .error (.invalidBoard e)⟩
  | .ok b => solveBoard task b detail

/-- Solves the board in the contents of a file. -/
def solve (task : Task τ) (contents : Except FileProblem ByteArray) (detail : Option Level) :
    Report :=
  match contents with
  | .error why => ⟨[], .error (.file why)⟩
  | .ok bytes =>
    match String.fromUTF8? bytes with
    | none => ⟨[], .error (.file .invalidText)⟩
    | some text => solveText task text detail

end FiniteDomain.Futoshiki
