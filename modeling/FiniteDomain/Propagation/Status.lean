import FiniteDomain.Ident
/-!
# The outcome of a propagation

A call either leaves the assignment open or finds that it cannot be extended to a solution.
-/
namespace FiniteDomain

/-- Why the current assignment is a dead end. -/
inductive Inconsistency where
  | emptyDomain (x : VariableId)
  | constraintViolated (c : ConstraintId)
deriving DecidableEq

inductive Status where
  | consistent
  | inconsistent (why : Inconsistency)
deriving DecidableEq

namespace Status

def isConsistent : Status → Bool
  | consistent => true
  | inconsistent _ => false

/-- The wording of log records. -/
def label : Status → String
  | consistent => "Ok(())"
  | inconsistent (.emptyDomain x) => s!"Err(EmptyDomain({x.label}))"
  | inconsistent (.constraintViolated c) => s!"Err(ConstraintViolated(ConstraintId({c.index})))"

end Status

/-- The wording of what set off a propagation: an assigned variable, or nothing for the root. -/
def triggerLabel : Option VariableId → String
  | none => "None"
  | some x => s!"Some({x.label})"

end FiniteDomain
