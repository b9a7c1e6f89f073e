import FiniteDomain.CommandLine.Item
import FiniteDomain.Futoshiki.Solve
/-!
# Arguments

A command line names one board, and each option at most once.
-/
namespace FiniteDomain.CommandLine

structure Arguments where
  path : String
  options : Options
  kind : Futoshiki.ModelKind
  allSolutions : Bool
  solutionLimit : Option Nat
  decisionLimit : Option Nat
  timeLimit : Option Nat
  logStatistics : Bool
  verbose : Bool
deriving DecidableEq

/-- What the items so far have told. -/
structure Draft where
  path : Option String := none
  propagator : Option PropagatorKind := none
  variableSelection : Option VariableSelection := none
  valueSelection : Option ValueSelection := none
  seed : Option Nat := none
  kind : Option Futoshiki.ModelKind := none
  solutionLimit : Option Nat := none
  decisionLimit : Option Nat := none
  timeLimit : Option Nat := none
  switches : List Switch := []

namespace Draft

def number (value : String) : Option Nat := Text.readNat64 value.toList

/-- One of several names. -/
def choice {α : Type} (label : α → String) (all : List α) (value : String) : Option α :=
  all.find? (label · = value)

/-- Fills the place of a setting, which has to be free. -/
def fill {α : Type} (s : Setting) (place : Option α) (read : String → Option α) (value : String) :
    Except UsageError (Option α) :=
  match place, read value with
  | some _, _ => .error (.repeatedSetting s)
  | none, none => .error (.invalidValue s value)
  | none, some a => .ok (some a)

def addSetting (d : Draft) (s : Setting) (value : String) : Except UsageError Draft := do
  match s with
  | .propagator => return { d with
      propagator := ← fill s d.propagator (choice PropagatorKind.label PropagatorKind.all) value }
  | .variableSelection => return { d with
      variableSelection := ← fill s d.variableSelection
        (choice VariableSelection.label VariableSelection.all) value }
  | .valueSelection => return { d with
      valueSelection := ← fill s d.valueSelection
        (choice ValueSelection.label ValueSelection.all) value }
  | .model => return { d with
      kind := ← fill s d.kind (choice Futoshiki.ModelKind.label Futoshiki.ModelKind.all) value }
  | .randomSeed => return { d with seed := ← fill s d.seed number value }
  | .solutionLimit => return { d with solutionLimit := ← fill s d.solutionLimit number value }
  | .decisionLimit => return { d with decisionLimit := ← fill s d.decisionLimit number value }
  | .timeLimit => return { d with timeLimit := ← fill s d.timeLimit number value }

/-- The draft after one more item. A path is not empty, and nothing is told twice. -/
def add (d : Draft) : Item → Except UsageError Draft
  | .path text =>
    if d.path.isSome then .error (.secondPath text)
    else if text.isEmpty then .error .emptyPath
    else .ok { d with path := some text }
  | .switch s =>
    if d.switches.contains s then .error (.repeatedSwitch s)
    else .ok { d with switches := s :: d.switches }
  | .setting s value => d.addSetting s value
  | .wrong e => .error e

/-- The arguments of a finished draft, which has a path. What has not been told has its default. -/
def finish (d : Draft) : Except UsageError Arguments :=
  let default : Options := {}
  match d.path with
  | none => .error .missingPath
  | some path => .ok {
      path
      options := {
        propagator := d.propagator.getD default.propagator
        variableSelection := d.variableSelection.getD default.variableSelection
        valueSelection := d.valueSelection.getD default.valueSelection
        seed := (d.seed.map UInt64.ofNat).getD default.seed }
      kind := d.kind.getD .binary
      allSolutions := d.switches.contains .allSolutions
      solutionLimit := d.solutionLimit
      decisionLimit := d.decisionLimit
      timeLimit := d.timeLimit
      logStatistics := d.switches.contains .logStatistics
      verbose := d.switches.contains .verbose }

end Draft

namespace Arguments

def condition (a : Arguments) : Condition :=
  .either (.ofOption (a.timeLimit.map .timeBudget)) (.ofOption (a.decisionLimit.map .decisions))

def task (a : Arguments) : Futoshiki.Task Condition :=
  ⟨a.options, a.kind, a.allSolutions, a.solutionLimit, a.condition⟩

def detail (a : Arguments) : Level := if a.verbose then .debug else .warn

end Arguments

/-- What a command line asks for. -/
inductive Request where
  | help
  | version
  | solve (a : Arguments)
deriving DecidableEq

/-- Reads items in order. Asking for help or for the version is answered at once: what comes before
has to be right, and what follows does not matter. -/
def Request.ofItems (d : Draft) : List Item → Except UsageError Request
  | [] => return .solve (← d.finish)
  | .switch .help :: _ => return .help
  | .switch .version :: _ => return .version
  | item :: items => do
    let next ← d.add item
    Request.ofItems next items

def Request.parse (args : List String) : Except UsageError Request :=
  Request.ofItems {} (readItems none args)

end FiniteDomain.CommandLine
