import FiniteDomain.Constraint.Basic
/-!
# Constraint networks

A network owns variables and constraints, and indexes the constraints by the variables of their
scopes. Models fill it; a search changes the domains and assignments of its variables only.
-/
namespace FiniteDomain

/-- The variables and constraints of a problem. -/
structure Network where
  vars : Store VariableId Variable
  constraints : Store ConstraintId Constraint
  /-- For every variable the constraints with it in their scope, in the order they came. -/
  containing : Store VariableId (List ConstraintId)

structure Removal where
  var : VariableId
  value : Int
deriving DecidableEq

/-- A value for every variable, in the order of the variables. -/
abbrev Solution := Store VariableId Int

namespace Network

def empty : Network := ⟨.empty, .empty, .empty⟩

instance : Inhabited Network := ⟨empty⟩

def numVariables (net : Network) : Nat := net.vars.size

def numConstraints (net : Network) : Nat := net.constraints.size

def variableAt (net : Network) (x : VariableId) : Except Breach Variable := net.vars.fetch x

def constraintAt (net : Network) (c : ConstraintId) : Except Breach Constraint :=
  net.constraints.fetch c

/-- The constraints with `x` in their scope, in the order they were added. -/
def constraintsContaining (net : Network) (x : VariableId) : Except Breach (List ConstraintId) :=
  net.containing.fetch x

def addVariable (net : Network) (name : String) (domain : List Int) :
    Except ModelError (VariableId × Network) := do
  let x ← Variable.create name domain
  return (net.vars.nextKey,
    { net with vars := net.vars.push x, containing := net.containing.push [] })

/-- A scope lists known variables, each once; the first that is unknown or repeated is at fault. -/
def checkScope (net : Network) (name : String) (seen : List VariableId) :
    List VariableId → Except ModelError Unit
  | [] => .ok ()
  | x :: xs =>
    match net.vars.get? x with
    | none => .error (.unknownVariable name)
    | some v =>
      if seen.contains x then .error (.duplicateScopeVariable name v.name)
      else checkScope net name (x :: seen) xs

/-- A tuple takes each value from the full domain of the variable at its position. -/
def checkValues (net : Network) (name : String) : List VariableId → List Int → Except ModelError Unit
  | x :: xs, value :: values =>
    match net.vars.get? x with
    | none => .error (.unknownVariable name)
    | some v =>
      if v.fullDomain.contains value then checkValues net name xs values
      else .error (.valueOutsideDomain name v.name value)
  | _, _ => .ok ()

/-- A tuple has the length of the scope, and values of the full domains. -/
def checkTuple (net : Network) (c : Constraint) (tuple : List Int) : Except ModelError Unit :=
  if tuple.length = c.arity then net.checkValues c.name c.scope tuple
  else .error (.tupleArityMismatch c.name c.arity tuple.length)

/-- What a constraint has to meet to be added. -/
def validate (net : Network) (c : Constraint) : Except ModelError Unit := do
  if c.scope.isEmpty then throw (.emptyScope c.name)
  net.checkScope c.name [] c.scope
  c.tuples.toList.forM (net.checkTuple c)

/-- Adds a valid constraint and enters it in the index of each of its variables. -/
def addConstraint (net : Network) (c : Constraint) : Except ModelError (ConstraintId × Network) := do
  net.validate c
  let id := net.constraints.nextKey
  return (id, { net with
    constraints := net.constraints.push c
    containing := c.scope.foldl (fun index x => index.modify x (· ++ [id])) net.containing })

/-- Replaces one variable by what `f` makes of it. -/
def alter (net : Network) (x : VariableId) (f : Variable → Except Breach Variable) :
    Except Breach Network :=
  return { net with vars := ← net.vars.alter x f }

def prune (net : Network) (x : VariableId) (value : Int) : Except Breach Network :=
  net.alter x (·.prune value)

def restore (net : Network) (x : VariableId) (value : Int) : Except Breach Network :=
  net.alter x (·.restore value)

def assign (net : Network) (x : VariableId) (value : Int) : Except Breach Network :=
  net.alter x (·.assign value)

def unassign (net : Network) (x : VariableId) : Except Breach Network :=
  net.alter x Variable.unassign

/-- Puts removed values back in order. A breach comes with what was restored before it. -/
def restoreAll (net : Network) : List Removal → Except (Breach × Network) Network
  | [] => .ok net
  | r :: rs =>
    match net.restore r.var r.value with
    | .ok net => net.restoreAll rs
    | .error b => .error (b, net)

/-- Whether the values of the scope are a satisfying tuple. -/
def satisfies (solution : Solution) (c : Constraint) : Except Breach Bool :=
  return c.check (← c.scope.mapM solution.fetch)

/-- Whether every constraint of the list is satisfied, asked up to the first that is not. -/
def satisfiesAll (solution : Solution) : List Constraint → Except Breach Bool
  | [] => .ok true
  | c :: cs => do if ← satisfies solution c then satisfiesAll solution cs else return false

/-- Whether the solution has a value for each variable and satisfies every constraint. -/
def isSolution (net : Network) (solution : Solution) : Except Breach Bool :=
  if solution.size = net.numVariables then satisfiesAll solution net.constraints.toList
  else .ok false

end Network

end FiniteDomain
