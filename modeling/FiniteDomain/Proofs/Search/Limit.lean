import FiniteDomain.Proofs.Search.Enumeration
/-!
# Limits

With a condition that never stops, a run ends where it has found as many solutions as are wanted,
and explores everything if there are fewer.
-/
namespace FiniteDomain

variable {τ : Type} [Termination τ] {net : Network} {solver : Solver} {unending : τ}
  {detail : Option Level} {steps : List Step} {g' : Progress} {options : Options}

open Termination

theorem Move.react_of_no_solution (h : NeverStops unending) {step : Step}
    (hnone : solutionsOf [step] = []) (wanted : Option Nat) :
    ∃ unending', step.move.react unending wanted = (none, unending', wanted) ∧
      NeverStops unending' := by
  have hask := ask_of_neverStops h wanted
  obtain ⟨move, network, after⟩ := step
  cases move with
  | root status =>
    by_cases hstatus : status.isConsistent = true
    · rw [react, if_pos hstatus]
      exact ⟨_, congrArg (·, _) hask.1, hask.2⟩
    · rw [react, if_neg hstatus]
      exact ⟨unending, rfl, h⟩
  | decision x a status =>
    obtain ⟨hno, hnever⟩ := h.answer 1
    have hnot : ¬(shouldStop (decisionMade unending)).1 = true := Bool.eq_false_iff.mp hno
    exact ⟨_, congrArg (·, _) (if_neg hnot), hnever⟩
  | solution s => cases hnone
  | backtrack => exact ⟨_, congrArg (·, _) hask.1, hask.2⟩

/-- Up to a number of solutions, a run finds the first ones of all. -/
theorem play_of_limit (h : NeverStops unending) (steps : List Step) (limit : Nat) :
    solutionsOf (play steps unending (some (limit + 1))).made =
        (solutionsOf steps).take (limit + 1) ∧
      (play steps unending (some (limit + 1))).ending =
        if (solutionsOf steps).length ≤ limit then .exhausted else .interrupted := by
  induction steps generalizing unending limit with
  | nil => exact ⟨List.take_nil.symm, (if_pos (Nat.zero_le limit)).symm⟩
  | cons step steps ih =>
    by_cases hnone : solutionsOf [step] = []
    · obtain ⟨unending', hreact, hnever⟩ := Move.react_of_no_solution h hnone (some (limit + 1))
      have hskip (rest : List Step) : solutionsOf (step :: rest) = solutionsOf rest := by
        rw [solutionsOf_cons, hnone, List.nil_append]
      rw [play_cons_of_none hreact, hskip, hskip]
      exact ih hnever limit
    · obtain ⟨move, network, after⟩ := step
      cases move with
      | solution s =>
        cases limit with
        | zero =>
          have hreact : (Move.solution s).react unending (some 1) =
              (some .interrupted, unending, some 0) := rfl
          rw [play_cons_of_some hreact]
          exact ⟨rfl, rfl⟩
        | succ limit =>
          have hreact : (Move.solution s).react unending (some (limit + 1 + 1)) =
              (none, unending, some (limit + 1)) := by
            simp [Move.react]
          obtain ⟨hfound, hending⟩ := ih h limit
          rw [play_cons_of_none hreact]
          refine ⟨congrArg (s :: ·) hfound, hending.trans ?_⟩
          simp only [solutionsOf, List.length_cons, Nat.add_le_add_iff_right]
      | root | decision | backtrack => exact absurd rfl hnone

/-- What a run reports, for any limit but a limit of none. -/
theorem Searches.reported_of_neverStops
    (h : Searches options net (solver.progress detail) steps g') (hunending : NeverStops unending)
    {limit : Option Nat} (hlimit : limit ≠ some 0) :
    (solver.played detail (play steps unending limit)).journal.solutions =
      limit.elim (solutionsOf steps) (solutionsOf steps).take := by
  rw [h.solutions_played]
  match limit with
  | none => rw [play_of_neverStops hunending, Option.elim_none]
  | some 0 => exact absurd rfl hlimit
  | some (limit + 1) => exact (play_of_limit hunending steps limit).1

theorem ending_eq_exhausted_iff (h : NeverStops unending) (steps : List Step) {limit : Option Nat}
    (hlimit : limit ≠ some 0) :
    (play steps unending limit).ending = .exhausted ↔
      ∀ n, limit = some n → (solutionsOf steps).length < n := by
  match limit with
  | none => exact iff_of_true (ending_eq_exhausted h steps) fun n hn => nomatch hn
  | some 0 => exact absurd rfl hlimit
  | some (limit + 1) =>
    rw [(play_of_limit h steps limit).2]
    by_cases hlength : (solutionsOf steps).length ≤ limit
    · rw [if_pos hlength]
      refine iff_of_true rfl fun n hn => ?_
      obtain rfl := Option.some.inj hn
      omega
    · rw [if_neg hlength]
      refine iff_of_false (fun he => nomatch he) fun hless => ?_
      have := hless _ rfl
      omega

theorem Searches.satisfy_of_neverStops
    (hsearches : Searches options net (solver.progress detail) steps g')
    (hunending : NeverStops unending) (hsearch : solver.search unending detail (some 1) =
      .ok (solver.played detail (play steps unending (some 1)))) :
    ∃ run, solver.satisfy unending detail =
        .ok ((solutionsOf steps).head?.elim .unsatisfiable .satisfiable, run) ∧
      run.journal.solutions = (solutionsOf steps).take 1 := by
  have hreported : _ = (solutionsOf steps).take 1 :=
    hsearches.reported_of_neverStops hunending fun hlimit : some 1 = some 0 => nomatch hlimit
  refine ⟨_, ?_, hreported⟩
  rw [Solver.satisfy, hsearch]
  have hhead : (solver.played detail (play steps unending (some 1))).journal.solutions.head? =
      (solutionsOf steps).head? := by
    rw [hreported]
    cases solutionsOf steps <;> rfl
  have hending : (solver.played detail (play steps unending (some 1))).ending =
      if (solutionsOf steps).length ≤ 0 then .exhausted else .interrupted :=
    (play_of_limit hunending steps 0).2
  change Except.ok (_, _) = _
  simp only [hhead, hending]
  cases solutionsOf steps <;> rfl

/-- A limit cuts the enumeration short and changes nothing else. The search for a single solution
answers with the first of the enumeration. -/
theorem Solver.limit_truncates {τ' : Type} [Termination τ'] {unending' : τ'} (hnet : net.Reachable)
    (hsolver : (ofNetwork net options).RunsTo solver) (hunending : NeverStops unending)
    (hunending' : NeverStops unending') (detail : Option Level) :
    ∃ all run, solver.enumerate unending detail none = .ok (⟨all, true⟩, run) ∧
      run.journal.solutions = all ∧
      (∀ k, 1 ≤ k → ∃ result run',
        solver.enumerate unending' detail (some k) = .ok (result, run') ∧
        run'.journal.solutions = result.solutions ∧
        result.solutions = all.take (min k all.length) ∧
        result.solutions.length = min k all.length ∧
        (result.isComplete = true ↔ all.length < k)) ∧
      ∃ verdict run', solver.satisfy unending' detail = .ok (verdict, run') ∧
        (∀ s, verdict = .satisfiable s ↔ all.head? = some s) ∧
        (verdict = .unsatisfiable ↔ all = []) ∧ verdict ≠ .unknown := by
  have hwf := hnet.wellFormed
  obtain ⟨steps, g', hsearches, hsearch⟩ := (hsolver.rests hwf).search_eq hwf detail
  have hnone : (none : Option Nat) ≠ some 0 := fun he => nomatch he
  have hall : (solver.played detail (play steps unending none)).journal.solutions =
      solutionsOf steps := hsearches.reported_of_neverStops hunending hnone
  refine ⟨solutionsOf steps, _, ?_, hall, fun k hk => ?_, ?_⟩
  · rw [enumerate_eq_ok hnone (hsearch unending none), hall]
    have hend : (solver.played detail (play steps unending none)).ending = .exhausted :=
      ending_eq_exhausted hunending steps
    rw [hend]
    rfl
  · have hlimit : some k ≠ some 0 := by
      intro he
      obtain rfl := Option.some.inj he
      cases hk
    have hfirst : (solver.played detail (play steps unending' (some k))).journal.solutions =
        (solutionsOf steps).take k := hsearches.reported_of_neverStops hunending' hlimit
    refine ⟨_, _, enumerate_eq_ok hlimit (hsearch unending' (some k)), rfl, ?_, ?_, ?_⟩
    · rw [hfirst, ← List.take_eq_take_min]
    · rw [hfirst, List.length_take]
    · have hend : (solver.played detail (play steps unending' (some k))).ending = .exhausted ↔
          ∀ n, some k = some n → (solutionsOf steps).length < n :=
        ending_eq_exhausted_iff hunending' steps hlimit
      simpa using hend
  · obtain ⟨run, hverdict, -⟩ :=
      hsearches.satisfy_of_neverStops hunending' (hsearch unending' (some 1))
    refine ⟨_, run, hverdict, ?_⟩
    cases solutionsOf steps with
    | nil => simp
    | cons s rest => simp

theorem Solver.limit_truncates_orderedPair :
    let net := Network.orderedPair
    let first := ofNetwork net ⟨.check, .smallestDomain, .random, 7⟩
    net.Reachable ∧ NeverStops Condition.never ∧ ∃ verdict run,
      first.satisfy (Condition.decisions 1) none = .ok (verdict, run) ∧
      first.RunsTo run.solver ∧
      ∃ all run', run.solver.enumerate Condition.never none none = .ok (⟨all, true⟩, run') ∧
        run'.journal.solutions = all ∧
        (∀ k, 1 ≤ k → ∃ result run'',
          run.solver.enumerate Condition.never none (some k) = .ok (result, run'') ∧
          run''.journal.solutions = result.solutions ∧
          result.solutions = all.take (min k all.length) ∧
          result.solutions.length = min k all.length ∧
          (result.isComplete = true ↔ all.length < k)) ∧
        ∃ verdict run'', run.solver.satisfy Condition.never none = .ok (verdict, run'') ∧
          (∀ s, verdict = .satisfiable s ↔ all.head? = some s) ∧
          (verdict = .unsatisfiable ↔ all = []) ∧ verdict ≠ .unknown := by
  intro net first
  have hnet : net.Reachable := Network.reachable_orderedPair
  have hnever : NeverStops Condition.never := Condition.neverStops_never
  have hfirst : first.RunsTo first := .refl
  obtain ⟨steps, g', -, hsearch⟩ := (hfirst.rests hnet.wellFormed).search_eq hnet.wellFormed none
  obtain ⟨verdict, hrun, -⟩ := satisfy_eq_ok (hsearch (Condition.decisions 1) (some 1))
  have hsecond : first.RunsTo _ := .satisfy hfirst hrun
  exact ⟨hnet, hnever, verdict, _, hrun, hsecond,
    limit_truncates hnet hsecond hnever hnever none⟩

end FiniteDomain
