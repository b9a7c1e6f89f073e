import FiniteDomain.Propagation.Pass
/-!
# Checking assigned tuples

Plain backtracking: nothing is pruned. A dead end shows once all variables of a constraint with
the trigger are assigned and the assigned tuple is not allowed.
-/
namespace FiniteDomain

structure CheckCounters where
  /-- Fully assigned constraints looked at. -/
  checks : Nat := 0
  /-- Checks that found a violated constraint. -/
  violations : Nat := 0
deriving DecidableEq, Inhabited

namespace Check

/-- Checks one constraint, if its scope is assigned. -/
def examine (id : ConstraintId) : PassM CheckCounters Unit := do
  let c ← PassM.constraintAt id
  match ← PassM.demand (c.assignedValues (← PassM.vars)) with
  | none => pure ()
  | some values =>
    PassM.modifyOwn fun n => { n with checks := n.checks + 1 }
    unless c.check values do
      PassM.modifyOwn fun n => { n with violations := n.violations + 1 }
      PassM.deadEnd (.constraintViolated id)

/-- Checks the constraints of the trigger in order; without a trigger there is nothing to check. -/
def pass : Option VariableId → PassM CheckCounters Unit
  | none => pure ()
  | some x => do (← PassM.constraintsContaining x).forM examine

end Check

end FiniteDomain
