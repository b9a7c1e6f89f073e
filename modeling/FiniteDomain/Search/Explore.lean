import FiniteDomain.Search.Step
/-!
# Depth-first search

A subtree ends exhausted, or with the reason to leave the whole search; either way the decisions
made in it are taken back. The condition is asked before a variable is selected, after every
decision, and when the values of a variable are used up.
-/
namespace FiniteDomain

namespace Search
variable {τ π : Type} [Termination τ] [Propagation π]

/-- Decides `x` on each value in turn, and explores below each consistent decision. -/
def tryValues (descend : SearchM τ π Ending) (x : VariableId) : List Int → SearchM τ π Ending
  | [] => do
    count fun n => { n with backtracks := n.backtracks + 1 }
    return if ← poll then .stopped else .exhausted
  | value :: rest => do
    let outcome ← makeDecision x value
    let ending ←
      if ← poll then pure .stopped
      else if outcome.status.isConsistent then descend
      else pure .exhausted
    undo x outcome.removed
    match ending with
    | .exhausted => tryValues descend x rest
    | ending => return ending

/-- Explores below `depth` open decisions, with at most `unassigned` variables left to decide. -/
def explore (options : Options) : (unassigned depth : Nat) → SearchM τ π Ending
  | 0, depth => reportSolution depth
  | unassigned + 1, depth => do
    match options.variableSelection.select (← get).network with
    | none => reportSolution depth
    | some x =>
      let values ← orderedValues options.valueSelection x
      count fun n => { n with peakDepth := max n.peakDepth (depth + 1) }
      tryValues (explore options unassigned (depth + 1)) x values

/-- Propagates at the root and explores; afterwards the root removals are restored. -/
def fromRoot (options : Options) : SearchM τ π Ending := do
  let root ← propagate none
  let ending ←
    if root.status.isConsistent then
      if ← poll then pure .stopped
      else explore options (← get).network.unassigned.length 0
    else
      note (.rootInconsistent root.status)
      pure .exhausted
  restoreAll root.removed
  note (.searchEnded ending)
  return ending

end Search

end FiniteDomain
