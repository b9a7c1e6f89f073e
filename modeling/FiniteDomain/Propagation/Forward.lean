import FiniteDomain.Propagation.Pass
/-!
# Forward checking

In every constraint with exactly one unassigned variable, the values of that variable go which do
not satisfy the constraint together with the assigned values.
-/
namespace FiniteDomain

structure ForwardCounters where
  /-- Constraints with one unassigned variable looked at. -/
  revisions : Nat := 0
  /-- Values tried for the unassigned variable. -/
  valuesTried : Nat := 0
deriving DecidableEq, Inhabited

namespace Forward

/-- Whether the constraint is satisfied with `x = value` assigned for the question only. -/
def probe (c : Constraint) (x : VariableId) (value : Int) : PassM ForwardCounters Bool := do
  PassM.assign x value
  let values ← PassM.demand (c.assignedValues (← PassM.vars))
  PassM.unassign x
  return values.any c.check

/-- Tries one value and removes it if the constraint is not satisfied. -/
def tryValue (c : Constraint) (x : VariableId) (value : Int) : PassM ForwardCounters Unit := do
  PassM.modifyOwn fun n => { n with valuesTried := n.valuesTried + 1 }
  unless ← probe c x value do PassM.remove ⟨x, value⟩

/-- Tries the values of the only unassigned variable of the constraint. -/
def tryLast (c : Constraint) : PassM ForwardCounters Unit := do
  match ← PassM.demand (c.unassigned (← PassM.vars)) with
  | [x] =>
    PassM.modifyOwn fun n => { n with revisions := n.revisions + 1 }
    (← PassM.domainValues x).forM (tryValue c x)
  | free => throw (.breach (.notOneUnassigned c.name free.length))

/-- Looks at one constraint, which matters if it has exactly one unassigned variable. -/
def examine (id : ConstraintId) : PassM ForwardCounters Unit := do
  let c ← PassM.constraintAt id
  let free ← PassM.demand (c.unassigned (← PassM.vars))
  if free.length = 1 then tryLast c

/-- Looks at the constraints of the trigger in order, or at all of them. -/
def pass (trigger : Option VariableId) : PassM ForwardCounters Unit := do
  let ids ← match trigger with
    | some x => PassM.constraintsContaining x
    | none => PassM.constraintIds
  ids.forM examine

end Forward

end FiniteDomain
