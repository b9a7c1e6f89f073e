import FiniteDomain.Constraint.Basic
/-!
# Supports

A value of a variable is supported by a constraint when it can be completed to a satisfying tuple,
where an assigned variable takes its assigned value and any other a current one. The combinations
of candidates are tried where they are no more than the tuples, else the tuples are looked through.
-/
namespace FiniteDomain

/-- Whether some combination, a value from each list in turn, is accepted. The combinations are
tried in order, the last position running fastest, up to the first that is. -/
def anyCombination (accepts : List Int → Bool) : List (List Int) → Bool
  | [] => accepts []
  | values :: rest =>
    values.any fun value => anyCombination (fun tuple => accepts (value :: tuple)) rest

/-- Whether each value of the tuple is among the candidates of its position. -/
def drawnFrom : List (List Int) → List Int → Bool
  | values :: rest, value :: tuple => values.contains value && drawnFrom rest tuple
  | _, _ => true

/-- The number of combinations of the candidates. -/
def numCombinations : List (List Int) → Nat
  | [] => 1
  | values :: rest => values.length * numCombinations rest

namespace Constraint

/-- The values that `other` can take next to `x = value`. -/
def candidatesOf (vars : Store VariableId Variable) (x : VariableId) (value : Int)
    (other : VariableId) : Except Breach (List Int) :=
  if other = x then .ok [value]
  else do
    let y ← vars.fetch other
    return match y.assignedValue with
      | some assigned => [assigned]
      | none => y.currentDomain

/-- Whether some choice of candidates is a satisfying tuple. -/
def admitsSome (c : Constraint) (candidates : List (List Int)) : Bool :=
  if candidates.any List.isEmpty then false
  else if numCombinations candidates ≤ c.numTuples then anyCombination c.check candidates
  else c.tuples.any (drawnFrom candidates)

/-- Whether `x = value` can be completed to a satisfying tuple. -/
def hasSupport (c : Constraint) (vars : Store VariableId Variable) (x : VariableId)
    (value : Int) : Except Breach Bool :=
  return c.admitsSome (← c.scope.mapM (candidatesOf vars x value))

end Constraint

end FiniteDomain
