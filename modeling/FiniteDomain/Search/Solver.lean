import FiniteDomain.Search.Explore
import FiniteDomain.Statistic
/-!
# Solvers

A solver owns a network and runs searches over it. Its generator and its counters go on from one
run to the next; the network is handed back by every run as it was.
-/
namespace FiniteDomain

structure Solver where
  network : Network
  options : Options
  propagator : Propagator
  generator : Generator
  counters : Counters

/-- What a run of the search leaves: the solver, the condition, its journal and its ending. -/
structure Run (τ : Type) where
  solver : Solver
  condition : τ
  journal : Journal
  ending : Ending

/-- The answer to the search for one solution. -/
inductive Verdict where
  | satisfiable (s : Solution)
  | unsatisfiable
  | unknown

/-- The answer to the search for all solutions, or for the first ones up to a limit. -/
structure Enumeration where
  solutions : List Solution
  /-- Whether there are no others. -/
  isComplete : Bool

namespace Solver

def ofNetwork (network : Network) (options : Options) : Solver :=
  ⟨network, options, .ofKind options.propagator, .ofSeed options.seed, {}⟩

/-- What there is to say about a network that a solver is made for. -/
def remarks (network : Network) (detail : Option Level) : Journal :=
  if network.numVariables = 0 then (Journal.empty detail).record .problemWithoutVariables
  else .empty detail

variable {τ : Type} [Termination τ]

/-- Searches for solutions, as many as are wanted. -/
def search (solver : Solver) (condition : τ) (detail : Option Level) (wanted : Option Nat) :
    Except Breach (Run τ) :=
  let start : Search τ Propagator := ⟨solver.network, solver.propagator, solver.generator, solver.counters,
    .empty detail, condition, wanted⟩
  match (Search.fromRoot solver.options).run start with
  | .error b _ => .error b
  | .ok ending s =>
    .ok ⟨⟨s.network, solver.options, s.propagator, s.generator, s.counters⟩,
      s.condition, s.journal, ending⟩

/-- Searches for a single solution. -/
def satisfy (solver : Solver) (condition : τ) (detail : Option Level) :
    Except Breach (Verdict × Run τ) := do
  let run ← solver.search condition detail (some 1)
  let verdict := match run.journal.solutions.head?, run.ending with
    | some s, _ => .satisfiable s
    | none, .stopped => .unknown
    | none, _ => .unsatisfiable
  return (verdict, run)

/-- Searches for every solution, or for the first ones up to a limit. A limit of none at all asks
for no search. -/
def enumerate (solver : Solver) (condition : τ) (detail : Option Level) (limit : Option Nat) :
    Except Breach (Enumeration × Run τ) :=
  if limit = some 0 then
    .ok (⟨[], false⟩, ⟨solver, condition, .empty detail, .interrupted⟩)
  else do
    let run ← solver.search condition detail limit
    return (⟨run.journal.solutions, run.ending = .exhausted⟩, run)

/-- The statistic lines of the search and its propagator, with the text of the time it took. -/
def statisticLines (solver : Solver) (solveTime : String) : List String :=
  Statistic.lines "" solver.counters.statistics ++
    [Statistic.line "solve_time" solveTime] ++
    Statistic.lines solver.propagator.name solver.propagator.statistics ++
    [Statistic.endLine]

end Solver

end FiniteDomain
