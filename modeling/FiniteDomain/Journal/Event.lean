import FiniteDomain.Propagation.Status
/-!
# Events

What is worth a log record, with its level of detail and its wording.
-/
namespace FiniteDomain

/-- Levels of detail, the coarsest first. -/
inductive Level where
  | error | warn | info | debug | trace
deriving DecidableEq

namespace Level

def rank : Level → Nat
  | error => 0
  | warn => 1
  | info => 2
  | debug => 3
  | trace => 4

def label : Level → String
  | error => "ERROR"
  | warn => "WARN"
  | info => "INFO"
  | debug => "DEBUG"
  | trace => "TRACE"

end Level

/-- How a search ends. -/
inductive Ending where
  /-- Every branch was explored. -/
  | exhausted
  /-- The termination condition said so. -/
  | stopped
  /-- As many solutions were found as were wanted. -/
  | interrupted
deriving DecidableEq

/-- The wording of log records. -/
def Ending.label : Ending → String
  | exhausted => "Exhausted"
  | stopped => "Stopped"
  | interrupted => "Interrupted"

inductive Event where
  | executionFailed (why : String)
  | loggingConfigured
  | boardParsed (size : Nat)
  | modelBuilt (kind : String) (vars constraints : Nat)
  | constraintAdded (name : String) (tuples : Nat)
  | problemWithoutVariables
  | valuePruned (value : Int) (name : String)
  | domainEmptied (name : String)
  | queueCleared (x : VariableId)
  | propagated (propagator : String) (trigger : Option VariableId) (status : Status)
      (removals : Nat)
  | rootInconsistent (status : Status)
  | decided (name : String) (value : Int)
  | solutionFound (depth : Nat)
  | searchEnded (ending : Ending)

namespace Event

def level : Event → Level
  | executionFailed _ => .error
  | problemWithoutVariables => .warn
  | loggingConfigured | boardParsed .. => .info
  | modelBuilt .. | rootInconsistent .. | solutionFound .. | searchEnded .. => .debug
  | constraintAdded .. | valuePruned .. | domainEmptied .. | queueCleared .. | propagated ..
  | decided .. => .trace

def message : Event → String
  | executionFailed why => s!"Execution failed, error: {why}"
  | loggingConfigured => "Logging successfully configured"
  | boardParsed size => s!"parsed a {size}x{size} board"
  | modelBuilt kind vars constraints =>
    s!"built a {kind} model with {vars} variables and {constraints} constraints"
  | constraintAdded name tuples => s!"adding constraint {name} with {tuples} tuples"
  | problemWithoutVariables => "The solver was created for a problem without variables"
  | valuePruned value name => s!"pruned {value} from {name}"
  | domainEmptied name => s!"domain of {name} is empty"
  | queueCleared x => s!"wipeout of {x.label}, clearing the queue"
  | propagated propagator trigger status removals =>
    s!"{propagator} on {triggerLabel trigger}: {status.label} after pruning {removals} values"
  | rootInconsistent status => s!"initial propagation failed: {status.label}"
  | decided name value => s!"deciding {name} = {value}"
  | solutionFound depth => s!"found a solution at depth {depth}"
  | searchEnded ending => s!"search ended: {ending.label}"

end Event

end FiniteDomain
