import FiniteDomain.Proofs.Search.Balance
/-!
# Accounts of runs

Over any sequence of runs, the counters of a solver agree with what the runs have shown: the calls
of the propagator, the values that these removed and the solutions reported.
-/
namespace FiniteDomain

structure Account where
  /-- A limit of none at all asks for no search. -/
  searched : Bool
  reported : List Solution
  calls : List Observation

/-- The solvers that runs lead to, with an account of every run. -/
inductive Solver.Accounts (first : Solver) : Solver → List Account → Prop
  | start : Accounts first first []
  | satisfy {τ : Type} [Termination τ] {solver : Solver} {accounts : List Account} {condition : τ}
    {detail : Option Level} {verdict : Verdict} {run : Run τ} {calls : List Observation} :
    Accounts first solver accounts → solver.satisfy condition detail = .ok (verdict, run) →
    solver.watch condition detail (some 1) = .ok (run, calls) →
    Accounts first run.solver (accounts ++ [⟨true, run.journal.solutions, calls⟩])
  | enumerate {τ : Type} [Termination τ] {solver : Solver} {accounts : List Account} {condition : τ}
    {detail : Option Level} {limit : Option Nat} {result : Enumeration} {run : Run τ}
    {calls : List Observation} :
    Accounts first solver accounts → limit ≠ some 0 →
    solver.enumerate condition detail limit = .ok (result, run) →
    solver.watch condition detail limit = .ok (run, calls) →
    Accounts first run.solver (accounts ++ [⟨true, run.journal.solutions, calls⟩])
  | enumerateNone {τ : Type} [Termination τ] {solver : Solver} {accounts : List Account}
    {condition : τ} {detail : Option Level} {result : Enumeration} {run : Run τ} :
    Accounts first solver accounts →
    solver.enumerate condition detail (some 0) = .ok (result, run) →
    Accounts first run.solver (accounts ++ [⟨false, run.journal.solutions, []⟩])

/-- The counters are those that the accounts of all runs add up to, for a network with so many
unassigned variables. -/
structure Counters.Agrees (n : Counters) (accounts : List Account) (unassigned : Nat) : Prop where
  calls_eq : n.propagatorCalls = n.decisions + accounts.countP Account.searched
  solutions_eq : n.solutions = (accounts.map fun account => account.reported.length).sum
  pruned_eq : n.prunedValues = (accounts.map fun account => pruned account.calls).sum
  peakDepth_le : n.peakDepth ≤ unassigned

variable {τ : Type} [Termination τ] {net : Network} {options : Options} {solver : Solver}
  {condition : τ} {detail : Option Level} {wanted : Option Nat} {steps : List Step} {g' : Progress}
  {accounts : List Account} {calls : List Observation}

theorem Solver.Accounts.runsTo {first : Solver} (h : first.Accounts solver accounts) :
    first.RunsTo solver := by
  induction h with
  | start => exact .refl
  | satisfy _ hrun _ ih => exact .satisfy ih hrun
  | enumerate _ _ hrun _ ih => exact .enumerate ih hrun
  | enumerateNone _ hrun ih => exact .enumerate ih hrun

theorem Searches.agrees_played (h : Searches options net (solver.progress detail) steps g')
    (hagrees : solver.counters.Agrees accounts net.unassigned.length)
    (hmeters : solver.counters.Meters
      (solver.played detail (play steps condition wanted)).solver.counters calls) :
    (solver.played detail (play steps condition wanted)).solver.counters.Agrees
      (accounts ++
        [⟨true, (solver.played detail (play steps condition wanted)).journal.solutions, calls⟩])
      net.unassigned.length where
  calls_eq := by
    have hcalls := h.counter_played Counters.tallies_calls condition wanted
    have hdecisions := h.counter_played Counters.tallies_decisions condition wanted
    have htotal := h.total_calls condition wanted
    rw [total, total] at htotal
    rw [hcalls, hdecisions, htotal, hagrees.calls_eq, List.countP_append]
    simp only [List.countP_singleton, if_true]
    omega
  solutions_eq := by
    rw [h.solutions_counted, hagrees.solutions_eq]
    simp
  pruned_eq := by
    rw [hmeters.pruned_eq, hagrees.pruned_eq]
    simp
  peakDepth_le := h.peakDepth_played hagrees.peakDepth_le condition wanted

theorem Counters.agrees_start (unassigned : Nat) : ({} : Counters).Agrees [] unassigned :=
  ⟨rfl, rfl, rfl, Nat.zero_le unassigned⟩

theorem Counters.Agrees.skipped {n : Counters} {unassigned : Nat} (h : n.Agrees accounts unassigned) :
    n.Agrees (accounts ++ [⟨false, [], []⟩]) unassigned where
  calls_eq := by simp [h.calls_eq]
  solutions_eq := by simp [h.solutions_eq]
  pruned_eq := by simp [h.pruned_eq, pruned]
  peakDepth_le := h.peakDepth_le

/-- Every run of a solver at rest has an account, in balance and in agreement with its counters. -/
theorem Solver.Rests.exists_account (hrests : solver.Rests net options) (hwf : net.WellFormed)
    (condition : τ) (detail : Option Level) (wanted : Option Nat) :
    ∃ run calls, solver.search condition detail wanted = .ok run ∧
      solver.watch condition detail wanted = .ok (run, calls) ∧ solver.Balances detail run ∧
      ∀ accounts, solver.counters.Agrees accounts net.unassigned.length →
        run.solver.counters.Agrees (accounts ++ [⟨true, run.journal.solutions, calls⟩])
          net.unassigned.length := by
  obtain ⟨steps, g', hsearches, hsearch⟩ := hrests.search_eq hwf detail
  obtain ⟨rfl, rfl, -, -⟩ := hrests
  have hrun := hsearch condition wanted
  obtain ⟨calls, hwatch, hmeters⟩ := exists_watch hrun
  exact ⟨_, calls, hrun, hwatch, hsearches.balances condition wanted,
    fun accounts hagrees => hsearches.agrees_played hagrees hmeters⟩

theorem Solver.Accounts.agrees (h : (ofNetwork net options).Accounts solver accounts)
    (hwf : net.WellFormed) : solver.counters.Agrees accounts net.unassigned.length := by
  induction h with
  | start => exact Counters.agrees_start _
  | @satisfy _ _ solver accounts condition detail verdict run calls hbefore _ hwatch ih =>
    obtain ⟨run', calls', -, hwatch', -, hagrees⟩ :=
      (hbefore.runsTo.rests hwf).exists_account hwf condition detail (some 1)
    rw [hwatch'] at hwatch
    cases hwatch
    exact hagrees accounts ih
  | @enumerate _ _ solver accounts condition detail limit result run calls hbefore _ _ hwatch ih =>
    obtain ⟨run', calls', -, hwatch', -, hagrees⟩ :=
      (hbefore.runsTo.rests hwf).exists_account hwf condition detail limit
    rw [hwatch'] at hwatch
    cases hwatch
    exact hagrees accounts ih
  | @enumerateNone _ _ solver accounts condition detail result run _ hrun ih =>
    rw [Solver.enumerate, if_pos rfl] at hrun
    cases hrun
    exact ih.skipped

/-- The counters balance: over all runs they agree with what the runs have shown, and each run adds
to them what the branches of its search allow. -/
theorem Solver.statistics_balance (hnet : net.Reachable)
    (haccounts : (ofNetwork net options).Accounts solver accounts) (condition : τ)
    (detail : Option Level) :
    solver.counters.Agrees accounts net.unassigned.length ∧
    (∃ verdict run calls, solver.satisfy condition detail = .ok (verdict, run) ∧
      solver.watch condition detail (some 1) = .ok (run, calls) ∧ solver.Balances detail run ∧
      (ofNetwork net options).Accounts run.solver
        (accounts ++ [⟨true, run.journal.solutions, calls⟩])) ∧
    (∀ limit, limit ≠ some 0 → ∃ result run calls,
      solver.enumerate condition detail limit = .ok (result, run) ∧
      solver.watch condition detail limit = .ok (run, calls) ∧ solver.Balances detail run ∧
      (ofNetwork net options).Accounts run.solver
        (accounts ++ [⟨true, run.journal.solutions, calls⟩])) ∧
    ∃ result run, solver.enumerate condition detail (some 0) = .ok (result, run) ∧
      (ofNetwork net options).Accounts run.solver
        (accounts ++ [⟨false, run.journal.solutions, []⟩]) := by
  have hwf := hnet.wellFormed
  have hrests := haccounts.runsTo.rests hwf
  refine ⟨haccounts.agrees hwf, ?_, fun limit hlimit => ?_, ?_⟩
  · obtain ⟨run, calls, hrun, hwatch, hbalances, -⟩ :=
      hrests.exists_account hwf condition detail (some 1)
    obtain ⟨verdict, hverdict, -⟩ := satisfy_eq_ok hrun
    exact ⟨verdict, run, calls, hverdict, hwatch, hbalances,
      .satisfy haccounts hverdict hwatch⟩
  · obtain ⟨run, calls, hrun, hwatch, hbalances, -⟩ :=
      hrests.exists_account hwf condition detail limit
    have hresult := enumerate_eq_ok hlimit hrun
    exact ⟨_, run, calls, hresult, hwatch, hbalances, .enumerate haccounts hlimit hresult hwatch⟩
  · have hresult : solver.enumerate condition detail (some 0) = .ok (_, _) := if_pos rfl
    exact ⟨_, _, hresult, .enumerateNone haccounts hresult⟩

theorem Solver.statistics_balance_orderedPair :
    let net := Network.orderedPair
    let first := ofNetwork net ⟨.arc, .smallestDomain, .random, 7⟩
    net.Reachable ∧ ∃ verdict run calls,
      first.satisfy (Condition.decisions 1) none = .ok (verdict, run) ∧
      first.Accounts run.solver [⟨true, run.journal.solutions, calls⟩] ∧
      run.solver.counters.Agrees [⟨true, run.journal.solutions, calls⟩] 2 ∧
      ∃ result run' calls', run.solver.enumerate Condition.never none none = .ok (result, run') ∧
        run.solver.watch Condition.never none none = .ok (run', calls') ∧
        run.solver.Balances none run' := by
  intro net first
  have hnet : net.Reachable := Network.reachable_orderedPair
  have hfirst : first.Accounts first [] := .start
  obtain ⟨-, ⟨verdict, run, calls, hrun, -, -, hsecond⟩, -⟩ :=
    statistics_balance hnet hfirst (Condition.decisions 1) none
  obtain ⟨hagrees, -, henumerate, -⟩ := statistics_balance hnet hsecond Condition.never none
  obtain ⟨result, run', calls', hresult, hwatch, hbalances, -⟩ :=
    henumerate none fun he => nomatch he
  exact ⟨hnet, verdict, run, calls, hrun, hsecond, hagrees, result, run', calls', hresult, hwatch,
    hbalances⟩

end FiniteDomain
