import FiniteDomain.Proofs.Search.Sequence
import FiniteDomain.Proofs.Search.Solutions
import FiniteDomain.Proofs.Search.Stopping
import Mathlib.Data.Set.Card
/-!
# Enumerating all solutions

Without assigned variables, a limit or a condition that stops, every solution by current values is
reported exactly once, and nothing else is.
-/
namespace FiniteDomain

variable {τ : Type} [Termination τ] {net : Network} {options : Options} {solver : Solver}
  {unending : τ} {detail : Option Level} {steps : List Step} {g' : Progress}

theorem play_of_neverStops (h : Termination.NeverStops unending) (steps : List Step) :
    (play steps unending none).made = steps :=
  made_eq_of_exhausted (ending_eq_exhausted h steps)

/-- An enumeration is exact, and knows that it is. -/
theorem Solver.enumerate_exact (hnet : net.Reachable) (hfree : net.Free)
    (hsolver : (ofNetwork net options).RunsTo solver) (hunending : Termination.NeverStops unending)
    (detail : Option Level) :
    ∃ result run, solver.enumerate unending detail none = .ok (result, run) ∧
      run.journal.solutions = result.solutions ∧ result.isComplete = true ∧
      result.solutions.Nodup ∧
      (∀ s, s ∈ result.solutions ↔ net.SolvedBy s ∧ net.Offers s) ∧
      result.solutions.length = {s | net.SolvedBy s ∧ net.Offers s}.ncard := by
  have hwf := hnet.wellFormed
  have hrests := hsolver.rests hwf
  obtain ⟨steps, g', hsearches, hsearch⟩ := hrests.search_eq hwf detail
  have hsolutions : (solver.played detail (play steps unending none)).journal.solutions =
      solutionsOf steps := by
    rw [hsearches.solutions_played, play_of_neverStops hunending]
  have hnodup := hsearches.nodup_solutionsOf hwf hfree
  have hmem (s : Solution) := hsearches.mem_solutionsOf_iff (s := s) hwf hfree
  refine ⟨_, _, enumerate_eq_ok (fun he => nomatch he) (hsearch unending none), rfl, ?_, ?_, ?_, ?_⟩
  · exact decide_eq_true (ending_eq_exhausted hunending steps)
  · rwa [hsolutions]
  · intro s
    rw [hsolutions, hmem]
  · have hset : {s | net.SolvedBy s ∧ net.Offers s} = (solutionsOf steps).toFinset := by
      ext s
      rw [List.coe_toFinset, Set.mem_ofPred_eq, Set.mem_ofPred_eq, hmem]
    rw [hsolutions, hset, Set.ncard_coe_finset, List.toFinset_card_of_nodup hnodup]

theorem Solver.enumerate_exact_orderedPair :
    let net := Network.orderedPair
    let first := ofNetwork net ⟨.forward, .smallestDomain, .random, 7⟩
    net.Reachable ∧ net.Free ∧ Termination.NeverStops Condition.never ∧ ∃ verdict run,
      first.satisfy (Condition.decisions 1) none = .ok (verdict, run) ∧
      first.RunsTo run.solver ∧
      ∃ result run', run.solver.enumerate Condition.never none none = .ok (result, run') ∧
        run'.journal.solutions = result.solutions ∧ result.isComplete = true ∧
        result.solutions.Nodup ∧
        (∀ s, s ∈ result.solutions ↔ net.SolvedBy s ∧ net.Offers s) ∧
        result.solutions.length = {s | net.SolvedBy s ∧ net.Offers s}.ncard := by
  intro net first
  have hnet : net.Reachable := Network.reachable_orderedPair
  have hfree : net.Free := Network.free_orderedPair
  have hfirst : first.RunsTo first := .refl
  obtain ⟨steps, g', -, hsearch⟩ := (hfirst.rests hnet.wellFormed).search_eq hnet.wellFormed none
  obtain ⟨verdict, hrun, -⟩ := satisfy_eq_ok (hsearch (Condition.decisions 1) (some 1))
  have hsecond : first.RunsTo _ := .satisfy hfirst hrun
  exact ⟨hnet, hfree, Condition.neverStops_never, verdict, _, hrun, hsecond,
    enumerate_exact hnet hfree hsecond Condition.neverStops_never none⟩

/-- The only solution of the pair has the smaller value first. -/
example : ((Solver.ofNetwork .orderedPair {}).enumerate Condition.never none none).toOption.map
    (fun r => (r.1.solutions.map Store.toList, r.1.isComplete)) = some ([[0, 1]], true) := by
  decide +kernel

end FiniteDomain
