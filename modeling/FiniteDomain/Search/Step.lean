import FiniteDomain.Propagation.Propagator
import FiniteDomain.Search.Branching
import FiniteDomain.Termination
/-!
# Steps of a search

A decision assigns a value to a variable and propagates; taking it back restores what was pruned
before it unassigns. At a leaf, where every variable is assigned, the assigned values are reported.
-/
namespace FiniteDomain

/-- What shapes the search tree. -/
structure Options where
  propagator : PropagatorKind := .default
  variableSelection : VariableSelection := .inputOrder
  valueSelection : ValueSelection := .inDomainOrder
  seed : UInt64 := 42
deriving DecidableEq, Inhabited

structure Counters where
  decisions : Nat := 0
  /-- Decisions after which propagation found a dead end. -/
  deadEnds : Nat := 0
  /-- Variables of which every value was tried. -/
  backtracks : Nat := 0
  solutions : Nat := 0
  propagatorCalls : Nat := 0
  prunedValues : Nat := 0
  /-- The largest number of decisions open at once. -/
  peakDepth : Nat := 0
deriving DecidableEq, Inhabited

/-- The counters by their names. -/
def Counters.statistics (n : Counters) : List (String × Nat) :=
  [("num_decisions", n.decisions), ("num_dead_ends", n.deadEnds),
    ("num_backtracks", n.backtracks), ("num_solutions", n.solutions),
    ("num_propagator_calls", n.propagatorCalls), ("num_pruned_values", n.prunedValues),
    ("peak_depth", n.peakDepth)]

/-- The state of a search under a condition `τ` with a propagator `π`. -/
structure Search (τ π : Type) where
  network : Network
  propagator : π
  generator : Generator
  counters : Counters
  journal : Journal
  condition : τ
  /-- How many solutions are still wanted, if there is a limit. -/
  wanted : Option Nat

abbrev SearchM (τ π : Type) := EStateM Breach (Search τ π)

namespace Search

section
variable {τ π α : Type}

def demand : Except Breach α → SearchM τ π α
  | .ok a => pure a
  | .error b => throw b

def note (e : Event) : SearchM τ π Unit := modify fun s => { s with journal := s.journal.record e }

def count (f : Counters → Counters) : SearchM τ π Unit :=
  modify fun s => { s with counters := f s.counters }

def setNetwork (net : Network) : SearchM τ π Unit := modify fun s => { s with network := net }

/-- Puts removed values back; at a breach what was restored before it stays. -/
def restoreAll (removed : List Removal) : SearchM τ π Unit := do
  match (← get).network.restoreAll removed with
  | .ok net => setNetwork net
  | .error (b, net) =>
    setNetwork net
    throw b

/-- Takes back a decision on `x` with what its propagation removed. -/
def undo (x : VariableId) (removed : List Removal) : SearchM τ π Unit := do
  restoreAll removed
  setNetwork (← demand ((← get).network.unassign x))

/-- The assigned values, one for each variable. -/
def currentSolution (net : Network) : Except Breach Solution :=
  let values := net.vars.toList.filterMap Variable.assignedValue
  if values.length = net.numVariables then .ok (.ofList values)
  else .error (.incompleteSolution net.numVariables values.length)

/-- Reports the solution at a leaf with `depth` decisions open. -/
def reportSolution (depth : Nat) : SearchM τ π Ending := do
  let solution ← demand (currentSolution (← get).network)
  count fun n => { n with solutions := n.solutions + 1 }
  note (.solutionFound depth)
  modify fun s => { s with
    journal := s.journal.report solution
    wanted := s.wanted.map (· - 1) }
  return if (← get).wanted = some 0 then .interrupted else .exhausted

/-- The current domain of `x` in the order in which its values are tried. -/
def orderedValues (selection : ValueSelection) (x : VariableId) : SearchM τ π (List Int) := do
  let s ← get
  let v ← demand (s.network.variableAt x)
  let (values, generator) := selection.order v.currentDomain s.generator
  set { s with generator }
  return values

end

section
variable {τ π : Type} [Propagation π]

/-- Calls the propagator and counts what it did. -/
def propagate (trigger : Option VariableId) : SearchM τ π Outcome := do
  let s ← get
  let r := Propagation.call s.propagator trigger s.network s.journal
  set { s with network := r.network, propagator := r.own, journal := r.journal }
  let outcome ← demand r.answer
  count fun n => { n with
    propagatorCalls := n.propagatorCalls + 1
    prunedValues := n.prunedValues + outcome.removed.length }
  return outcome

end

section
variable {τ π : Type} [Termination τ]

/-- Asks the condition whether to stop. -/
def poll : SearchM τ π Bool := do
  let (stop, condition) := Termination.shouldStop (← get).condition
  modify fun s => { s with condition }
  return stop

end

variable {τ π : Type} [Termination τ] [Propagation π]

/-- Assigns a value and propagates. -/
def makeDecision (x : VariableId) (value : Int) : SearchM τ π Outcome := do
  note (.decided (← demand ((← get).network.variableAt x)).name value)
  setNetwork (← demand ((← get).network.assign x value))
  count fun n => { n with decisions := n.decisions + 1 }
  modify fun s => { s with condition := Termination.decisionMade s.condition }
  let outcome ← propagate (some x)
  unless outcome.status.isConsistent do
    count fun n => { n with deadEnds := n.deadEnds + 1 }
  return outcome

end Search

end FiniteDomain
