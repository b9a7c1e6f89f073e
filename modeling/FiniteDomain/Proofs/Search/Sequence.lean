import FiniteDomain.Proofs.Search.Report
/-!
# Runs in sequence

However many runs a solver has made, and wherever their conditions and limits ended them, its
network is the one it was made for and it can run again.
-/
namespace FiniteDomain

/-- The solvers that runs lead to, whatever their conditions, limits and endings. -/
inductive Solver.RunsTo (first : Solver) : Solver → Prop
  | refl : RunsTo first first
  | satisfy {τ : Type} [Termination τ] {solver : Solver} {condition : τ} {detail : Option Level}
    {verdict : Verdict} {run : Run τ} :
    RunsTo first solver → solver.satisfy condition detail = .ok (verdict, run) →
    RunsTo first run.solver
  | enumerate {τ : Type} [Termination τ] {solver : Solver} {condition : τ} {detail : Option Level}
    {limit : Option Nat} {result : Enumeration} {run : Run τ} :
    RunsTo first solver → solver.enumerate condition detail limit = .ok (result, run) →
    RunsTo first run.solver

/-- The solver is for this network and these options, and can run. -/
structure Solver.Rests (solver : Solver) (net : Network) (options : Options) : Prop where
  network_eq : solver.network = net
  options_eq : solver.options = options
  ready : solver.propagator.Ready
  kind_eq : solver.propagator.kind = options.propagator

variable {τ : Type} [Termination τ] {net : Network} {options : Options} {solver : Solver}
  {detail : Option Level} {condition : τ} {steps : List Step} {g' : Progress}

theorem Solver.rests_ofNetwork (net : Network) (options : Options) :
    (ofNetwork net options).Rests net options where
  network_eq := rfl
  options_eq := rfl
  ready := Propagator.ready_ofKind options.propagator
  kind_eq := by
    rw [ofNetwork]
    cases options.propagator <;> rfl

/-- A solver at rest has a search of which every run goes through a first part. -/
theorem Solver.Rests.search_eq (h : solver.Rests net options) (hwf : net.WellFormed)
    (detail : Option Level) :
    ∃ steps g', Searches options net (solver.progress detail) steps g' ∧
      ∀ {τ : Type} [Termination τ] (condition : τ) (wanted : Option Nat),
        solver.search condition detail wanted =
          .ok (solver.played detail (play steps condition wanted)) := by
  obtain ⟨rfl, rfl, hready, -⟩ := h
  obtain ⟨steps, g', hsearches⟩ := exists_searches (g := solver.progress detail) solver.options hwf hready
  exact ⟨steps, g', hsearches, fun condition wanted => hsearches.search_eq hwf condition wanted⟩

theorem Solver.Rests.played (h : solver.Rests net options)
    (hsearches : Searches options net (solver.progress detail) steps g') (condition : τ)
    (wanted : Option Nat) :
    (solver.played detail (play steps condition wanted)).solver.Rests net options := by
  have hleads := hsearches.linked.leads_of_isPrefix (isPrefix_made steps condition wanted)
  exact ⟨h.network_eq, h.options_eq, hleads.ready h.ready, hleads.kind_eq.trans h.kind_eq⟩

theorem Searches.solutions_played (h : Searches options net (solver.progress detail) steps g')
    (condition : τ) (wanted : Option Nat) :
    (solver.played detail (play steps condition wanted)).journal.solutions =
      solutionsOf (play steps condition wanted).made := by
  have hleads := h.linked.leads_of_isPrefix (isPrefix_made steps condition wanted)
  rw [Solver.played]
  exact (Journal.solutions_record _ _).trans hleads.solutions_eq

theorem Solver.satisfy_eq_ok {run : Run τ} (h : solver.search condition detail (some 1) = .ok run) :
    ∃ verdict, solver.satisfy condition detail = .ok (verdict, run) ∧
      (∀ s, verdict = .satisfiable s → s ∈ run.journal.solutions) ∧
      (verdict = .unsatisfiable → run.journal.solutions = [] ∧ run.ending ≠ .stopped) := by
  rw [satisfy, h]
  refine ⟨_, rfl, ?_, ?_⟩
  · intro s
    cases hhead : run.journal.solutions.head? with
    | some s' =>
      intro heq
      cases heq
      exact List.mem_of_mem_head? hhead
    | none => cases run.ending <;> exact fun heq => nomatch heq
  · cases hhead : run.journal.solutions.head? with
    | some s' => exact fun heq => nomatch heq
    | none =>
      rw [List.head?_eq_none_iff] at hhead
      cases run.ending with
      | stopped => exact fun heq => nomatch heq
      | exhausted => exact fun _ => ⟨hhead, fun heq => nomatch heq⟩
      | interrupted => exact fun _ => ⟨hhead, fun heq => nomatch heq⟩

theorem Solver.enumerate_eq_ok {run : Run τ} {limit : Option Nat} (hlimit : limit ≠ some 0)
    (h : solver.search condition detail limit = .ok run) :
    solver.enumerate condition detail limit =
      .ok (⟨run.journal.solutions, run.ending = .exhausted⟩, run) := by
  rw [enumerate, if_neg hlimit, h]
  rfl

theorem Solver.RunsTo.rests (h : (Solver.ofNetwork net options).RunsTo solver)
    (hwf : net.WellFormed) : solver.Rests net options := by
  induction h with
  | refl => exact Solver.rests_ofNetwork net options
  | @satisfy _ _ solver condition detail verdict run _ hrun ih =>
    obtain ⟨steps, g', hsearches, hsearch⟩ := ih.search_eq hwf detail
    obtain ⟨verdict', hverdict, -⟩ := Solver.satisfy_eq_ok (hsearch condition (some 1))
    rw [hverdict] at hrun
    cases hrun
    exact ih.played hsearches condition (some 1)
  | @enumerate _ _ solver condition detail limit result run _ hrun ih =>
    by_cases hlimit : limit = some 0
    · rw [Solver.enumerate, if_pos hlimit] at hrun
      cases hrun
      exact ih
    · obtain ⟨steps, g', hsearches, hsearch⟩ := ih.search_eq hwf detail
      rw [Solver.enumerate_eq_ok hlimit (hsearch condition limit)] at hrun
      cases hrun
      exact ih.played hsearches condition limit

/-- Every run of a solver answers, and hands back its network as it was. -/
theorem Solver.run_hands_back (hnet : net.Reachable)
    (hsolver : (ofNetwork net options).RunsTo solver) (condition : τ) (detail : Option Level)
    (limit : Option Nat) :
    (∃ verdict run, solver.satisfy condition detail = .ok (verdict, run) ∧
      run.solver.network = net) ∧
    ∃ result run, solver.enumerate condition detail limit = .ok (result, run) ∧
      run.solver.network = net := by
  have hrests := hsolver.rests hnet.wellFormed
  obtain ⟨steps, g', hsearches, hsearch⟩ := hrests.search_eq hnet.wellFormed detail
  constructor
  · obtain ⟨verdict, hverdict, -⟩ := satisfy_eq_ok (hsearch condition (some 1))
    exact ⟨verdict, _, hverdict, hrests.network_eq⟩
  · by_cases hlimit : limit = some 0
    · exact ⟨_, _, if_pos hlimit, hrests.network_eq⟩
    · exact ⟨_, _, enumerate_eq_ok hlimit (hsearch condition limit), hrests.network_eq⟩

/-- After a run with another condition, on the pair of ordered variables with a value assigned to
the first and pruned from it. -/
theorem Solver.run_hands_back_orderedPair :
    let net := (Network.orderedPair.assigning ⟨0⟩ 0).without [⟨⟨0⟩, 0⟩]
    let first := ofNetwork net ⟨.arc, .smallestDomain, .random, 7⟩
    net.Reachable ∧ ∃ result run,
      first.enumerate (Condition.decisions 1) none (some 2) = .ok (result, run) ∧
      first.RunsTo run.solver ∧
      (∃ verdict run', run.solver.satisfy Condition.never none = .ok (verdict, run') ∧
        run'.solver.network = net) ∧
      ∃ result' run', run.solver.enumerate Condition.never none none = .ok (result', run') ∧
        run'.solver.network = net := by
  intro net first
  have hnet : net.Reachable :=
    .prune (x := ⟨0⟩) (a := 0)
      (.assign (x := ⟨0⟩) (a := 0) Network.reachable_orderedPair rfl) rfl
  have hfirst : first.RunsTo first := .refl
  obtain ⟨-, result, run, hrun, -⟩ :=
    run_hands_back hnet hfirst (Condition.decisions 1) none (some 2)
  have hsecond : first.RunsTo run.solver := .enumerate hfirst hrun
  exact ⟨hnet, result, run, hrun, hsecond, run_hands_back hnet hsecond Condition.never none none⟩

end FiniteDomain
