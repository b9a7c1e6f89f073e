import FiniteDomain.Network.Basic
/-!
# Building tables

Constraints given by a condition are written out as the tuples of the full domains that meet it.
What has been pruned or assigned plays no part.
-/
namespace FiniteDomain

/-- Every choice of one value from each list, in lexicographic order of positions. -/
def combinations : List (List Int) → List (List Int)
  | [] => [[]]
  | values :: rest => values.flatMap fun value => (combinations rest).map (value :: ·)

/-- The choices of one value from each list that repeat no value and avoid the `used` ones. -/
def distinctCombinations : List (List Int) → List Int → List (List Int)
  | [], _ => [[]]
  | values :: rest, used =>
    (values.filter fun value => !used.contains value).flatMap fun value =>
      (distinctCombinations rest (value :: used)).map (value :: ·)

/-- Whether the two values of a pair stand in a relation; no other tuple passes. -/
def pairTest (related : Int → Int → Bool) : List Int → Bool
  | [a, b] => related a b
  | _ => false

namespace Constraint

/-- The full domains along a scope of known variables. -/
def fullDomains (net : Network) (scope : List VariableId) : Except Breach (List (List Int)) :=
  scope.mapM fun x => return (← net.variableAt x).fullDomain

/-- The constraint that allows what passes the test. -/
def ofPredicate (net : Network) (name : String) (scope : List VariableId)
    (test : List Int → Bool) : Except Breach Constraint :=
  return ofTuples name scope ((combinations (← fullDomains net scope)).filter test)

/-- The two variables take different values. -/
def notEquals (net : Network) (x y : VariableId) : Except Breach Constraint := do
  let name := (← net.variableAt x).name ++ " != " ++ (← net.variableAt y).name
  ofPredicate net name [x, y] (pairTest (· != ·))

/-- The first variable takes the smaller value. -/
def lessThan (net : Network) (x y : VariableId) : Except Breach Constraint := do
  let name := (← net.variableAt x).name ++ " < " ++ (← net.variableAt y).name
  ofPredicate net name [x, y] (pairTest (· < ·))

/-- No two variables of the scope take the same value. -/
def allDifferent (net : Network) (name : String) (scope : List VariableId) :
    Except Breach Constraint :=
  return ofTuples name scope (distinctCombinations (← fullDomains net scope) [])

end Constraint

end FiniteDomain
