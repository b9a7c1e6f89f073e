import FiniteDomain.Proofs.Propagation.Soundness
import FiniteDomain.Proofs.Search.Play
import FiniteDomain.Search.Solver
/-!
# Whole runs

A run plays the propagation at the root and the exploration below it. Whatever its condition says,
it answers, hands back the network and leaves the propagator ready, so that runs can follow one
another.
-/
namespace FiniteDomain

namespace Progress

def failed (g : Progress) (net : Network) (outcome : Outcome) : Progress :=
  let g := g.propagated none net outcome
  { g with journal := g.journal.record (.rootInconsistent outcome.status) }

def ended (g : Progress) (ending : Ending) : Progress :=
  { g with journal := g.journal.record (.searchEnded ending) }

end Progress

/-- From the first progress, a search of the whole network makes the steps up to the last. -/
inductive Searches (options : Options) (net : Network) (g : Progress) : List Step → Progress → Prop
  | failed {outcome : Outcome} :
    g.propagator.Behaves none net g.journal outcome → outcome.status ≠ .consistent →
    Searches options net g
      [⟨.root outcome.status, net.without outcome.removed, g.failed net outcome⟩]
      (g.failed net outcome)
  | explored {outcome : Outcome} {steps : List Step} {g' : Progress} :
    g.propagator.Behaves none net g.journal outcome → outcome.status = .consistent →
    Explores options .node 0 (net.without outcome.removed) (g.propagated none net outcome) steps g' →
    Searches options net g
      (⟨.root outcome.status, net.without outcome.removed, g.propagated none net outcome⟩ :: steps) g'

variable {τ : Type} {options : Options} {net : Network} {g g' : Progress} {steps : List Step}
  {condition : τ} {wanted : Option Nat}

theorem exists_searches (options : Options) (hwf : net.WellFormed) (hready : g.propagator.Ready) :
    ∃ steps g', Searches options net g steps g' := by
  obtain ⟨outcome, hbehaves⟩ :=
    Propagator.call_behaves hwf net.mayTrigger_none hready g.journal
  by_cases hstatus : outcome.status = .consistent
  · have hready' : (g.propagated none net outcome).propagator.Ready := hbehaves.ready
    obtain ⟨steps, g', hexplored⟩ :=
      exists_explores options (hwf.without outcome.removed) 0 hready'
    exact ⟨_, g', .explored hbehaves hstatus hexplored⟩
  · exact ⟨_, _, .failed hbehaves hstatus⟩

theorem ends_leave {α : Type} {removed : List Removal} (hwf : net.WellFormed)
    (hrec : net.Records removed) (ending : Ending) (a : α) {Q : α → Search τ Propagator → Prop}
    {E : Breach → Search τ Propagator → Prop} :
    Ends (do
        Search.restoreAll removed
        Search.note (.searchEnded ending)
        pure a)
      (g.state (net.without removed) condition wanted) Q E ↔
      Q a ((g.ended ending).state net condition wanted) := by
  rw [ends_bind, Search.ends_restoreAll hwf hrec, ends_bind, Search.ends_note]
  exact Iff.rfl

variable [Termination τ]

/-- A run plays its search, and notes how it ended on the network that it started from. -/
theorem Searches.ends (h : Searches options net g steps g') (hwf : net.WellFormed) (condition : τ)
    (wanted : Option Nat) {Q : Ending → Search τ Propagator → Prop}
    {E : Breach → Search τ Propagator → Prop} :
    Ends (Search.fromRoot options) (g.state net condition wanted) Q E ↔
      Q (play steps condition wanted).ending
        (((g.finish (play steps condition wanted).made).ended (play steps condition wanted).ending).state
          net (play steps condition wanted).condition (play steps condition wanted).wanted) := by
  cases h with
  | @failed outcome hbehaves hstatus =>
    have hnot := mt Status.isConsistent_eq_true_iff.mp hstatus
    have hreact : (Move.root outcome.status).react condition wanted = (none, condition, wanted) := by
      rw [Move.react, if_neg hnot]
    rw [Search.fromRoot, ends_bind, Search.ends_propagate hbehaves, play_cons_of_none hreact]
    dsimp only
    rw [if_neg hnot, ends_bind, Search.ends_note]
    exact ends_leave (g := g.failed net outcome) hwf hbehaves.records .exhausted _
  | @explored outcome below g' hbehaves hstatus hexplored =>
    have hconsistent := Status.isConsistent_eq_true_iff.mpr hstatus
    rw [Search.fromRoot, ends_bind, Search.ends_propagate hbehaves]
    dsimp only
    rw [if_pos hconsistent, ends_bind, Search.ends_poll]
    by_cases hstop : (Termination.shouldStop condition).1 = true
    · rw [if_pos hstop, play_cons_of_some (by rw [Move.react, if_pos hconsistent, ask, if_pos hstop])]
      exact ends_leave hwf hbehaves.records .stopped _
    · rw [if_neg hstop, ends_bind, ends_get, Progress.network_state, ends_bind,
        play_cons_of_none (by rw [Move.react, if_pos hconsistent, ask, if_neg hstop])]
      refine (hexplored.ends (hwf.without _) (Nat.le_refl _) _ wanted).trans ?_
      exact ends_leave hwf hbehaves.records _ _

def Solver.progress (solver : Solver) (detail : Option Level) : Progress :=
  ⟨solver.propagator, solver.generator, solver.counters, .empty detail⟩

/-- What a run leaves that went through the steps so far. -/
def Solver.played (solver : Solver) (detail : Option Level) (played : Played τ) : Run τ :=
  let g := ((solver.progress detail).finish played.made).ended played.ending
  ⟨⟨solver.network, solver.options, g.propagator, g.generator, g.counters⟩, played.condition,
    g.journal, played.ending⟩

theorem Searches.search_eq {solver : Solver} {detail : Option Level}
    (h : Searches solver.options solver.network (solver.progress detail) steps g')
    (hwf : solver.network.WellFormed) (condition : τ) (wanted : Option Nat) :
    solver.search condition detail wanted =
      .ok (solver.played detail (play steps condition wanted)) := by
  have hrun : (Search.fromRoot solver.options).run
      ((solver.progress detail).state solver.network condition wanted) = _ :=
    ((h.ends hwf condition wanted).mpr ⟨rfl, rfl⟩).run_eq
  have hstart : (⟨solver.network, solver.propagator, solver.generator, solver.counters,
      .empty detail, condition, wanted⟩ : Search τ Propagator) =
        (solver.progress detail).state solver.network condition wanted := rfl
  rw [Solver.search, hstart, hrun]
  rfl

/-- The propagation that a run starts with is a dead end. -/
def Solver.RootFails (solver : Solver) (detail : Option Level) : Prop :=
  ∃ outcome, (solver.propagator.call none solver.network (.empty detail)).answer = .ok outcome ∧
    outcome.status ≠ .consistent

theorem Searches.play_of_rootFails {solver : Solver} {detail : Option Level}
    (h : Searches options solver.network (solver.progress detail) steps g')
    (hfails : solver.RootFails detail) (condition : τ) (wanted : Option Nat) :
    ∃ status network, play steps condition wanted =
      ⟨[⟨.root status, network, g'⟩], .exhausted, condition, wanted⟩ := by
  obtain ⟨outcome', hanswer, hnot⟩ := hfails
  cases h with
  | @failed outcome hbehaves hstatus =>
    have hreact : (Move.root outcome.status).react condition wanted = (none, condition, wanted) := by
      rw [Move.react, if_neg (mt Status.isConsistent_eq_true_iff.mp hstatus)]
    exact ⟨_, _, play_cons_of_none hreact⟩
  | @explored outcome below g' hbehaves hstatus hexplored =>
    obtain rfl : outcome = outcome' := Except.ok.inj (hbehaves.answer_eq.symm.trans hanswer)
    exact absurd hstatus hnot

theorem Searches.exists_explores {solver : Solver} {detail : Option Level}
    (h : Searches options solver.network (solver.progress detail) steps g')
    (hroot : ¬solver.RootFails detail) :
    ∃ outcome below, Explores options .node 0 (solver.network.without outcome.removed)
        ((solver.progress detail).propagated none solver.network outcome) below g' ∧
      steps = ⟨.root .consistent, solver.network.without outcome.removed,
        (solver.progress detail).propagated none solver.network outcome⟩ :: below := by
  cases h with
  | @failed outcome hbehaves hstatus =>
    exact absurd ⟨outcome, hbehaves.answer_eq, hstatus⟩ hroot
  | @explored outcome below g' hbehaves hstatus hexplored =>
    exact ⟨outcome, below, hexplored, by rw [hstatus]⟩

end FiniteDomain
