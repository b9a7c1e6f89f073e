import FiniteDomain.Ident
/-!
# Breaches of contract

Operations of the domain store, and look-ups by key, ask something of their caller.
A call that does not meet it changes nothing and answers with a `Breach`.
-/
namespace FiniteDomain

/-- What a caller failed to ensure. -/
inductive Breach where
  /-- A position at or beyond the length of the store. -/
  | outOfBounds (length index : Nat)
  /-- A value to prune has to be current. -/
  | pruneAbsent (value : Int) (name : String)
  /-- A value to restore has to be in the full domain and not current. -/
  | restoreMisplaced (value : Int) (name : String)
  /-- A value to assign has to be current. -/
  | assignAbsent (value : Int) (name : String)
  /-- Only an assigned variable can be unassigned. -/
  | unassignFree (name : String)
  /-- Arc consistency is triggered by assigned variables only. -/
  | triggerFree (x : VariableId)
  /-- A call of arc consistency starts with an empty queue. -/
  | queueOccupied
  /-- Forward checking looks at constraints with one unassigned variable. -/
  | notOneUnassigned (name : String) (found : Nat)
  /-- A solution has a value for every variable. -/
  | incompleteSolution (vars values : Nat)
deriving DecidableEq

namespace Breach

def message : Breach → String
  | outOfBounds length index =>
    s!"index out of bounds: the len is {length} but the index is {index}"
  | pruneAbsent value name =>
    s!"cannot prune {value} from {name}, it is not in the current domain"
  | restoreMisplaced value name =>
    s!"cannot restore {value} to {name}, it is either present or not in the full domain"
  | assignAbsent value name =>
    s!"cannot assign {value} to {name}, it is not in the current domain"
  | unassignFree name => s!"cannot unassign {name}, it is not assigned"
  | triggerFree x =>
    s!"propagation was triggered by {x.label}, which is not assigned"
  | queueOccupied => "propagation was started with constraints left in the queue"
  | notOneUnassigned name found =>
    s!"{name} does not have exactly one unassigned variable but {found}"
  | incompleteSolution vars values =>
    s!"a solution over {vars} variables needs as many values, found {values}"

end Breach

end FiniteDomain
