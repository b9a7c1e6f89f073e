import FiniteDomain.Propagation.Arc
import FiniteDomain.Propagation.Check
import FiniteDomain.Propagation.Forward
/-!
# Propagators

The three kinds of propagation that a search can choose from. A propagator lives through many
calls: its counters add up.
-/
namespace FiniteDomain

/-- What a search asks of a propagator: a call that looks at what the trigger, an assigned variable,
changed, or without a trigger at the whole network. -/
class Propagation (π : Type) where
  call : π → Option VariableId → Network → Journal → Call π

/-- Removes the listed values in order, until one empties a domain. -/
def Listed.pass (removals : List Removal) : PassM Unit Unit := removals.forM PassM.remove

inductive PropagatorKind where
  | check | forward | arc
deriving DecidableEq

namespace PropagatorKind

def all : List PropagatorKind := [check, forward, arc]

/-- The kind used when none is named. -/
protected def default : PropagatorKind := arc

instance : Inhabited PropagatorKind := ⟨.default⟩

/-- The short name that options use. -/
def label : PropagatorKind → String
  | check => "bt"
  | forward => "fc"
  | arc => "gac"

/-- The name that log records and statistics use. -/
def name : PropagatorKind → String
  | check => "BacktrackingCheck"
  | forward => "ForwardChecking"
  | arc => "GeneralisedArcConsistency"

end PropagatorKind

inductive Propagator where
  | check (counters : CheckCounters)
  | forward (counters : ForwardCounters)
  | arc (state : ArcState)

namespace Propagator

/-- A propagator that has not been called. -/
def ofKind : PropagatorKind → Propagator
  | .check => check {}
  | .forward => forward {}
  | .arc => arc ⟨.empty, {}⟩

def kind : Propagator → PropagatorKind
  | check _ => .check
  | forward _ => .forward
  | arc _ => .arc

def name (p : Propagator) : String := p.kind.name

def call (p : Propagator) (trigger : Option VariableId) (net : Network) (journal : Journal) :
    Call Propagator :=
  match p with
  | check counters =>
    let r := (Check.pass trigger).call p.name trigger net journal counters
    { r with own := check r.own }
  | forward counters =>
    let r := (Forward.pass trigger).call p.name trigger net journal counters
    { r with own := forward r.own }
  | arc state =>
    let r := (Arc.pass trigger).call p.name trigger net journal state
    { r with own := arc r.own }

instance : Propagation Propagator := ⟨call⟩

/-- The counters by their names. -/
def statistics : Propagator → List (String × Nat)
  | check n => [("num_checks", n.checks), ("num_violations", n.violations)]
  | forward n => [("num_revisions", n.revisions), ("num_values_tried", n.valuesTried)]
  | arc s => [("num_revisions", s.counters.revisions),
      ("num_support_checks", s.counters.supportChecks), ("num_wipeouts", s.counters.wipeouts)]

end Propagator

/-- Removes the listed values in a call of its own. -/
def Listed.call (removals : List Removal) (trigger : Option VariableId) (net : Network)
    (journal : Journal) : Call Unit :=
  (Listed.pass removals).call "RemoveListed" trigger net journal ()

end FiniteDomain
