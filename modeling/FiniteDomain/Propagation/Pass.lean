import FiniteDomain.Journal.Basic
/-!
# Passes

A pass is one call of a propagator: it reads the network, may assign a variable for a probe, and
takes values out of domains, each of which is recorded. It ends early at a dead end or a breach;
what was done before that stays done.
-/
namespace FiniteDomain

/-- What a pass works on; `own` is the propagator's own state. -/
structure Pass (σ : Type) where
  network : Network
  /-- The removals so far, in order. -/
  removed : Array Removal
  journal : Journal
  own : σ

inductive Halt where
  | inconsistent (why : Inconsistency)
  | breach (b : Breach)
deriving DecidableEq

/-- A step of a pass; where it ends early the state reached is kept. -/
abbrev PassM (σ : Type) := EStateM Halt (Pass σ)

namespace PassM
variable {σ α : Type}

def demand : Except Breach α → PassM σ α
  | .ok a => pure a
  | .error b => throw (.breach b)

def deadEnd (why : Inconsistency) : PassM σ α := throw (.inconsistent why)

def network : PassM σ Network := return (← get).network

def vars : PassM σ (Store VariableId Variable) := return (← get).network.vars

def variableAt (x : VariableId) : PassM σ Variable := do demand ((← network).variableAt x)

def constraintAt (c : ConstraintId) : PassM σ Constraint := do demand ((← network).constraintAt c)

def constraintsContaining (x : VariableId) : PassM σ (List ConstraintId) := do
  demand ((← network).constraintsContaining x)

def constraintIds : PassM σ (List ConstraintId) := return (← network).constraints.keys

/-- The current domain as it is now, so that values can be removed while it is gone through. -/
def domainValues (x : VariableId) : PassM σ (List Int) := return (← variableAt x).currentDomain

def setNetwork (net : Network) : PassM σ Unit := modify fun p => { p with network := net }

/-- Assigns for a probe; `unassign` has to follow within the pass. -/
def assign (x : VariableId) (value : Int) : PassM σ Unit := do
  setNetwork (← demand ((← network).assign x value))

def unassign (x : VariableId) : PassM σ Unit := do
  setNetwork (← demand ((← network).unassign x))

def note (e : Event) : PassM σ Unit := modify fun p => { p with journal := p.journal.record e }

def modifyOwn (f : σ → σ) : PassM σ Unit := modify fun p => { p with own := f p.own }

/-- Takes a value out of a domain and records it; a value that is not there is passed over.
A domain that loses its last value is a dead end. -/
def remove (r : Removal) : PassM σ Unit := do
  let x ← variableAt r.var
  if x.contains r.value then
    setNetwork (← demand ((← network).prune r.var r.value))
    modify fun p => { p with removed := p.removed.push r }
    note (.valuePruned r.value x.name)
    if x.size = 1 then
      note (.domainEmptied x.name)
      deadEnd (.emptyDomain r.var)

end PassM

/-- What a call of a propagator answers. -/
structure Outcome where
  status : Status
  /-- The removals in order; whoever takes back the trigger restores them. -/
  removed : List Removal

/-- A finished call: what it left behind, and its answer. -/
structure Call (σ : Type) where
  network : Network
  journal : Journal
  own : σ
  answer : Except Breach Outcome

/-- Runs a pass to its end. A call that answers is noted under the name of the propagator. -/
def PassM.call {σ : Type} (pass : PassM σ Unit) (name : String) (trigger : Option VariableId)
    (network : Network) (journal : Journal) (own : σ) : Call σ :=
  let answered (p : Pass σ) (status : Status) : Call σ :=
    ⟨p.network, p.journal.record (.propagated name trigger status p.removed.size), p.own,
      .ok ⟨status, p.removed.toList⟩⟩
  match pass.run ⟨network, #[], journal, own⟩ with
  | .ok () p => answered p .consistent
  | .error (.inconsistent why) p => answered p (.inconsistent why)
  | .error (.breach b) p => ⟨p.network, p.journal, p.own, .error b⟩

end FiniteDomain
