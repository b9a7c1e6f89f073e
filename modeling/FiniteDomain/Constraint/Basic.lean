import FiniteDomain.Store
import FiniteDomain.TupleSet
import FiniteDomain.Variable
/-!
# Table constraints

A constraint has an ordered scope and the set of tuples, aligned with the scope, that satisfy it.
Questions about the state of the search take the store of variables as an argument.
-/
namespace FiniteDomain

/-- An ordered scope with the tuples that are allowed on it. -/
structure Constraint where
  name : String
  scope : List VariableId
  tuples : TupleSet

namespace Constraint

def ofTuples (name : String) (scope : List VariableId) (tuples : List (List Int)) : Constraint :=
  ⟨name, scope, .ofList tuples⟩

def arity (c : Constraint) : Nat := c.scope.length

def numTuples (c : Constraint) : Nat := c.tuples.size

/-- Whether `values`, aligned with the scope, is a satisfying tuple. -/
def check (c : Constraint) (values : List Int) : Bool := c.tuples.contains values

/-- The variables of a list without an assigned value. -/
def unassignedAmong (vars : Store VariableId Variable) :
    List VariableId → Except Breach (List VariableId)
  | [] => .ok []
  | x :: xs => do
    let v ← vars.fetch x
    let rest ← unassignedAmong vars xs
    return if v.isAssigned then rest else x :: rest

/-- The scope variables without an assigned value, in scope order. -/
def unassigned (c : Constraint) (vars : Store VariableId Variable) :
    Except Breach (List VariableId) :=
  unassignedAmong vars c.scope

/-- The assigned values of a list of variables, if all of them are assigned. -/
def valuesAlong (vars : Store VariableId Variable) :
    List VariableId → Except Breach (Option (List Int))
  | [] => .ok (some [])
  | x :: xs => do
    match (← vars.fetch x).assignedValue with
    | none => return none
    | some value => return (← valuesAlong vars xs).map (value :: ·)

/-- The assigned tuple of the scope, if all its variables are assigned. -/
def assignedValues (c : Constraint) (vars : Store VariableId Variable) :
    Except Breach (Option (List Int)) :=
  valuesAlong vars c.scope

end Constraint

end FiniteDomain
