import FiniteDomain.Constraint.Support
import FiniteDomain.Propagation.Pass
import FiniteDomain.Propagation.Queue
/-!
# Generalised arc consistency

Every value of a scope variable has to have a support in the constraint. Constraints are revised
from a queue; a removal puts the constraints of its variable back into it, until the queue is
empty or a domain is. A constraint comes into the queue at the start or after a removal, so the
number of revisions is bounded by the queue and the current domains at the start.
-/
namespace FiniteDomain

structure ArcCounters where
  /-- Constraints taken from the queue. -/
  revisions : Nat := 0
  /-- Values for which a support was looked up. -/
  supportChecks : Nat := 0
  /-- Calls that emptied a domain. -/
  wipeouts : Nat := 0
deriving DecidableEq, Inhabited

structure ArcState where
  queue : Queue
  counters : ArcCounters
deriving Inhabited

namespace Arc

def count (f : ArcCounters → ArcCounters) : PassM ArcState Unit :=
  PassM.modifyOwn fun s => { s with counters := f s.counters }

def enqueueAll (ids : List ConstraintId) : PassM ArcState Unit :=
  PassM.modifyOwn fun s => { s with queue := ids.foldl Queue.enqueue s.queue }

def clearQueue : PassM ArcState Unit := do
  let queue ← PassM.demand (← get).own.queue.clear
  PassM.modifyOwn fun s => { s with queue }

/-- The next constraint to revise, taken out of the queue. -/
def dequeue : PassM ArcState (Option ConstraintId) := do
  match ← PassM.demand (← get).own.queue.pop with
  | none => return none
  | some (id, queue) =>
    PassM.modifyOwn fun s => { s with queue }
    return some id

/-- Removes `x = value` if the constraint does not support it, and queues the constraints of `x`. -/
def reviseValue (c : Constraint) (x : VariableId) (value : Int) : PassM ArcState Unit := do
  count fun n => { n with supportChecks := n.supportChecks + 1 }
  unless ← PassM.demand (c.hasSupport (← PassM.vars) x value) do
    PassM.remove ⟨x, value⟩
    enqueueAll (← PassM.constraintsContaining x)

def reviseVariable (c : Constraint) (x : VariableId) : PassM ArcState Unit := do
  (← PassM.domainValues x).forM (reviseValue c x)

def revise (id : ConstraintId) : PassM ArcState Unit := do
  count fun n => { n with revisions := n.revisions + 1 }
  let c ← PassM.constraintAt id
  c.scope.forM (reviseVariable c)

/-- Revises from the queue until it is empty, at most `steps` times. -/
def drain : (steps : Nat) → PassM ArcState Unit
  | 0 => pure ()
  | steps + 1 => do
    match ← dequeue with
    | none => pure ()
    | some id =>
      revise id
      drain steps

/-- For a variable, how many constraints the removal of all its values can queue. -/
def load (net : Network) (x : VariableId) : Nat :=
  match net.vars.get? x, net.containing.get? x with
  | some v, some ids => v.size * ids.length
  | _, _ => 0

def totalLoad (net : Network) : List VariableId → Nat
  | [] => 0
  | x :: xs => load net x + totalLoad net xs

/-- A number of revisions that empties the queue: what is in it now and what removals can add. -/
def sufficientSteps (p : Pass ArcState) : Nat :=
  p.own.queue.length + totalLoad p.network p.network.vars.keys

/-- Queues what the call starts from. A trigger keeps its assigned value only. -/
def start : Option VariableId → PassM ArcState Unit
  | none => do enqueueAll (← PassM.constraintIds)
  | some x => do
    match (← PassM.variableAt x).assignedValue with
    | none => throw (.breach (.triggerFree x))
    | some assigned =>
      (← PassM.domainValues x).forM fun value =>
        unless value = assigned do PassM.remove ⟨x, value⟩
      enqueueAll (← PassM.constraintsContaining x)

/-- Empties the queue after a wipeout, and passes the reason on. -/
def onHalt (h : Halt) : PassM ArcState Unit := do
  if let .inconsistent (.emptyDomain x) := h then
    PassM.note (.queueCleared x)
    clearQueue
    count fun n => { n with wipeouts := n.wipeouts + 1 }
  throw h

def pass (trigger : Option VariableId) : PassM ArcState Unit := do
  unless (← get).own.queue.isEmpty do throw (.breach .queueOccupied)
  start trigger
  tryCatch (drain (sufficientSteps (← get))) onHalt

/-- Whether every current value of every scope variable has a support in every constraint. -/
def isConsistent (net : Network) : Except Breach Bool :=
  net.constraints.toList.allM fun c => c.scope.allM fun x => do
    (← net.variableAt x).currentDomain.allM (c.hasSupport net.vars x)

end Arc

end FiniteDomain
