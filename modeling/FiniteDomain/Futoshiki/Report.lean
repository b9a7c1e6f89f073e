import FiniteDomain.Futoshiki.Board.Printer
import FiniteDomain.Futoshiki.Failure
import FiniteDomain.Search.Solver
/-!
# Reports

A report holds what is printed and what is logged, in order: each solution as a board with a line
after it, and a last line for the verdict, if one is due.
-/
namespace FiniteDomain.Futoshiki

/-- A line of a report: an event that is logged, or a line that is printed. -/
inductive Line where
  | event (e : Event)
  | text (s : String)

/-- What came of a task: its lines, and the solver as the search left it, or why there is none. -/
structure Report where
  lines : List Line
  result : Except Failure Solver

namespace Report

/-- The lines printed. -/
def printed (r : Report) : List String :=
  r.lines.filterMap fun
    | .text s => some s
    | .event _ => none

/-- The events logged. -/
def logged (r : Report) : List Event :=
  r.lines.filterMap fun
    | .event e => some e
    | .text _ => none

end Report

def separatorLine : String := "----------"

def completeLine : String := "=========="

def unknownLine : String := "=====UNKNOWN====="

def unsatisfiableLine : String := "=====UNSATISFIABLE====="

/-- The lines of a solution: the solved board, and the separator. -/
def solutionLines (b : Board) (s : Solution) : List Line :=
  (b.renderLines (Model.value b.size s)).map (fun cs => .text (String.ofList cs)) ++
    [.text separatorLine]

/-- The events of a journal; its solutions are not shown. -/
def eventLines (j : Journal) : List Line := j.events.map .event

/-- The entries of a journal in order, the solutions printed as they come. -/
def entryLines (b : Board) (j : Journal) : List Line :=
  j.entries.flatMap fun
    | .event e => [.event e]
    | .solution s => solutionLines b s

/-- The last line of an enumeration: nothing when it was cut short after some solutions. -/
def enumerationVerdict (e : Enumeration) : List Line :=
  match e.solutions.isEmpty, e.isComplete with
  | true, true => [.text unsatisfiableLine]
  | true, false => [.text unknownLine]
  | false, true => [.text completeLine]
  | false, false => []

/-- A single solution is printed after the search. -/
def verdictLines (b : Board) : Verdict → List Line
  | .satisfiable s => solutionLines b s
  | .unsatisfiable => [.text unsatisfiableLine]
  | .unknown => [.text unknownLine]

end FiniteDomain.Futoshiki
