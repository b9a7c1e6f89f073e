import FiniteDomain.Proofs.Search.Sequence
import FiniteDomain.Proofs.Search.Solutions
import FiniteDomain.Proofs.Search.Stopping
/-!
# Verdicts under any condition

Wherever a condition stops a run, the solutions reported so far are the first ones that the run
would have reported without it, and no answer claims more than was explored.
-/
namespace FiniteDomain

variable {τ τ' : Type} [Termination τ] [Termination τ'] {net : Network} {options : Options}
  {solver : Solver} {condition : τ} {unending : τ'} {detail : Option Level} {wanted : Option Nat}
  {steps : List Step} {g' : Progress} {s : Solution}

namespace Searches

theorem isPrefix_reported (h : Searches options net (solver.progress detail) steps g')
    (hunending : Termination.NeverStops unending) (condition : τ) (wanted : Option Nat) :
    (solver.played detail (play steps condition wanted)).journal.solutions <+:
      (solver.played detail (play steps unending wanted)).journal.solutions := by
  rw [h.solutions_played, h.solutions_played]
  exact isPrefix_solutionsOf (isPrefix_made_of_neverStops hunending steps condition wanted)

/-- However far a run got, it has reported nothing but solutions by current values. -/
theorem sound_of_reported (h : Searches options net (solver.progress detail) steps g')
    (hwf : net.WellFormed) (hfree : net.Free)
    (hs : s ∈ (solver.played detail (play steps condition wanted)).journal.solutions) :
    net.SolvedBy s ∧ net.Offers s := by
  rw [h.solutions_played] at hs
  have hpre := isPrefix_solutionsOf (isPrefix_made steps condition wanted)
  exact (h.mem_solutionsOf_iff hwf hfree).mp (hpre.subset hs)

theorem reported_of_exhausted (h : Searches options net (solver.progress detail) steps g')
    (hwf : net.WellFormed) (hfree : net.Free)
    (hend : (play steps condition wanted).ending = .exhausted) (hs : net.SolvedBy s)
    (hoffers : net.Offers s) :
    s ∈ (solver.played detail (play steps condition wanted)).journal.solutions := by
  rw [h.solutions_played, made_eq_of_exhausted hend]
  exact (h.mem_solutionsOf_iff hwf hfree).mpr ⟨hs, hoffers⟩

theorem exhausted_of_unreported (h : Searches options net (solver.progress detail) steps g')
    (hnil : (solver.played detail (play steps condition wanted)).journal.solutions = [])
    (hstop : (play steps condition wanted).ending ≠ .stopped) :
    (play steps condition wanted).ending = .exhausted := by
  rw [h.solutions_played] at hnil
  cases hend : (play steps condition wanted).ending with
  | exhausted => rfl
  | stopped => exact absurd hend hstop
  | interrupted => exact absurd hnil (solutionsOf_ne_nil_of_interrupted hend)

end Searches

/-- Stopped or not, runs report a first part of the solutions and answer only what they know. -/
theorem Solver.verdicts_sound (hnet : net.Reachable) (hfree : net.Free)
    (hsolver : (ofNetwork net options).RunsTo solver) (condition : τ)
    (hunending : Termination.NeverStops unending) (detail : Option Level) (limit : Option Nat) :
    (∃ result run result' run', solver.enumerate condition detail limit = .ok (result, run) ∧
      solver.enumerate unending detail limit = .ok (result', run') ∧
      run.journal.solutions <+: run'.journal.solutions ∧
      (result.isComplete = true →
        ∀ s, net.SolvedBy s → net.Offers s → s ∈ run.journal.solutions)) ∧
    ∃ verdict run verdict' run', solver.satisfy condition detail = .ok (verdict, run) ∧
      solver.satisfy unending detail = .ok (verdict', run') ∧
      run.journal.solutions <+: run'.journal.solutions ∧
      (verdict = .unsatisfiable → ¬∃ s, net.SolvedBy s ∧ net.Offers s) ∧
      ∀ s, verdict = .satisfiable s → net.isSolution s = .ok true ∧ net.Offers s := by
  have hwf := hnet.wellFormed
  obtain ⟨steps, g', hsearches, hsearch⟩ := (hsolver.rests hwf).search_eq hwf detail
  constructor
  · by_cases hlimit : limit = some 0
    · refine ⟨_, _, _, _, if_pos hlimit, if_pos hlimit, List.prefix_rfl, fun hcomplete => ?_⟩
      cases hcomplete
    · refine ⟨_, _, _, _, enumerate_eq_ok hlimit (hsearch condition limit),
        enumerate_eq_ok hlimit (hsearch unending limit),
        hsearches.isPrefix_reported hunending condition limit, fun hcomplete s hs hoffers => ?_⟩
      exact hsearches.reported_of_exhausted hwf hfree (of_decide_eq_true hcomplete) hs hoffers
  · obtain ⟨verdict, hverdict, hsat, hunsat⟩ := satisfy_eq_ok (hsearch condition (some 1))
    obtain ⟨verdict', hverdict', -⟩ := satisfy_eq_ok (hsearch unending (some 1))
    refine ⟨verdict, _, verdict', _, hverdict, hverdict',
      hsearches.isPrefix_reported hunending condition (some 1), ?_, ?_⟩
    · intro hunsatisfiable h
      obtain ⟨s, hs, hoffers⟩ := h
      obtain ⟨hnil, hstop⟩ := hunsat hunsatisfiable
      have hend := hsearches.exhausted_of_unreported hnil hstop
      have hmem := hsearches.reported_of_exhausted hwf hfree hend hs hoffers
      rw [hnil] at hmem
      cases hmem
    · intro s hsatisfiable
      obtain ⟨hs, hoffers⟩ := hsearches.sound_of_reported hwf hfree (hsat s hsatisfiable)
      exact ⟨Network.isSolution_eq_ok_true.mpr hs, hoffers⟩

/-- A budget of one decision against none, after an enumeration up to one solution, on the pair of
ordered variables. -/
theorem Solver.verdicts_sound_orderedPair :
    let net := Network.orderedPair
    let first := ofNetwork net ⟨.check, .inputOrder, .inDomainOrder, 42⟩
    net.Reachable ∧ net.Free ∧ Termination.NeverStops Condition.never ∧ ∃ result run,
      first.enumerate Condition.never none (some 1) = .ok (result, run) ∧
      first.RunsTo run.solver ∧
      (∃ result run' result' run'',
        run.solver.enumerate (Condition.decisions 1) none (some 2) = .ok (result, run') ∧
        run.solver.enumerate Condition.never none (some 2) = .ok (result', run'') ∧
        run'.journal.solutions <+: run''.journal.solutions ∧
        (result.isComplete = true →
          ∀ s, net.SolvedBy s → net.Offers s → s ∈ run'.journal.solutions)) ∧
      ∃ verdict run' verdict' run'',
        run.solver.satisfy (Condition.decisions 1) none = .ok (verdict, run') ∧
        run.solver.satisfy Condition.never none = .ok (verdict', run'') ∧
        run'.journal.solutions <+: run''.journal.solutions ∧
        (verdict = .unsatisfiable → ¬∃ s, net.SolvedBy s ∧ net.Offers s) ∧
        ∀ s, verdict = .satisfiable s → net.isSolution s = .ok true ∧ net.Offers s := by
  intro net first
  have hnet : net.Reachable := Network.reachable_orderedPair
  have hfree : net.Free := Network.free_orderedPair
  have hfirst : first.RunsTo first := .refl
  obtain ⟨steps, g', -, hsearch⟩ := (hfirst.rests hnet.wellFormed).search_eq hnet.wellFormed none
  have hrun := enumerate_eq_ok (by decide) (hsearch Condition.never (some 1))
  have hsecond : first.RunsTo _ := .enumerate hfirst hrun
  exact ⟨hnet, hfree, Condition.neverStops_never, _, _, hrun, hsecond,
    verdicts_sound hnet hfree hsecond (Condition.decisions 1) Condition.neverStops_never none (some 2)⟩

end FiniteDomain
