import FiniteDomain.Proofs.Search.Sharing
import FiniteDomain.Proofs.Search.Verdict
/-!
# Budgets of decisions

A budget changes nothing about a run that makes fewer decisions. Any other run it ends right after
its last decision, before the solution that this one may have completed is reported.
-/
namespace FiniteDomain

variable {τ : Type} [Termination τ] {unending : τ} {budget made left : Nat} {net : Network}
  {options : Options} {solver : Solver} {detail : Option Level} {steps : List Step} {g' : Progress}
  {marks : List Mark}

namespace Mark

def upToDecisions : Nat → List Mark → List Mark
  | 0, _ => []
  | _ + 1, [] => []
  | n + 1, decided x a :: marks => decided x a :: upToDecisions n marks
  | n + 1, found s :: marks => found s :: upToDecisions (n + 1) marks

@[simp] theorem countP_decided (x : VariableId) (a : Int) (marks : List Mark) :
    (decided x a :: marks).countP isDecision = marks.countP isDecision + 1 :=
  List.countP_cons_of_pos (p := isDecision) rfl

@[simp] theorem countP_found (s : Solution) (marks : List Mark) :
    (found s :: marks).countP isDecision = marks.countP isDecision :=
  List.countP_cons_of_neg (p := isDecision) Bool.false_ne_true

@[simp] theorem upToDecisions_zero (marks : List Mark) : upToDecisions 0 marks = [] := by
  cases marks <;> rfl

theorem countP_upToDecisions (n : Nat) (marks : List Mark) :
    (upToDecisions n marks).countP isDecision = min n (marks.countP isDecision) := by
  induction marks generalizing n with
  | nil => cases n <;> simp [upToDecisions]
  | cons mark marks ih =>
    cases n with
    | zero => simp
    | succ n =>
      cases mark with
      | decided x a => simp [upToDecisions, ih]
      | found s => simp [upToDecisions, ih]

theorem upToDecisions_eq_self {n : Nat} (h : marks.countP isDecision < n) :
    upToDecisions n marks = marks := by
  induction marks generalizing n with
  | nil => cases n <;> rfl
  | cons mark marks ih =>
    cases n with
    | zero => cases h
    | succ n =>
      cases mark with
      | decided x a =>
        rw [countP_decided] at h
        rw [upToDecisions, ih (Nat.lt_of_succ_lt_succ h)]
      | found s =>
        rw [countP_found] at h
        rw [upToDecisions, ih h]

theorem lt_length_upToDecisions_iff {n k : Nat} (hk : k < (marks.filterMap solution?).length) :
    k < ((upToDecisions n marks).filterMap solution?).length ↔
      (upTo (k + 1) marks).countP isDecision < n := by
  induction marks generalizing n k with
  | nil => cases hk
  | cons mark marks ih =>
    cases n with
    | zero => simp
    | succ n =>
      cases mark with
      | decided x a => simpa [upToDecisions, upTo, List.filterMap_cons, solution?] using ih hk
      | found s =>
        cases k with
        | zero => simp [upToDecisions, upTo, upTo_zero, solution?, isDecision]
        | succ k =>
          have hrest : k < (marks.filterMap solution?).length := Nat.lt_of_succ_lt_succ hk
          rw [upToDecisions, upTo, countP_found, ← ih hrest]
          exact Nat.add_lt_add_iff_right

theorem upTo_upTo_of_le {m n : Nat} (h : m ≤ n) (marks : List Mark) :
    upTo m (upTo n marks) = upTo m marks := by
  induction marks generalizing m n with
  | nil => cases n <;> rfl
  | cons mark marks ih =>
    cases n with
    | zero =>
      obtain rfl := Nat.le_zero.mp h
      rfl
    | succ n =>
      cases m with
      | zero => rw [upTo_zero, upTo_zero]
      | succ m =>
        cases mark with
        | decided x a => exact congrArg (decided x a :: ·) (ih h)
        | found s => exact congrArg (found s :: ·) (ih (Nat.le_of_succ_le_succ h))

end Mark

open Termination

/-- Of the steps of a full run, one that ends so makes those up to a number of decisions, and it is
stopped there if the full run makes that many. -/
structure Curtails (n : Nat) (cut : List Step) (ending : Ending) (full : List Step) : Prop where
  trail_eq : trail cut = Mark.upToDecisions n (trail full)
  stopped_iff : ending = .stopped ↔ n ≤ (trail full).countP Mark.isDecision

namespace Curtails

variable {n : Nat} {cut full : List Step} {ending : Ending} {step : Step}

theorem zero (htrail : trail cut = []) (full : List Step) : Curtails 0 cut .stopped full where
  trail_eq := htrail.trans (Mark.upToDecisions_zero _).symm
  stopped_iff := iff_of_true rfl (Nat.zero_le _)

theorem of_quiet (hending : ending ≠ .stopped)
    (hsteps : (steps.map fun step => step.move.decisions).sum = 0) :
    Curtails (n + 1) steps ending steps := by
  rw [sum_decisions] at hsteps
  have hless : (trail steps).countP Mark.isDecision < n + 1 := hsteps ▸ Nat.succ_pos n
  exact ⟨(Mark.upToDecisions_eq_self hless).symm, iff_of_false hending (Nat.not_le_of_lt hless)⟩

theorem cons_quiet (h : Curtails (n + 1) cut ending full) (hmove : step.move.decisions = 0) :
    Curtails (n + 1) (step :: cut) ending (step :: full) := by
  obtain ⟨htrail, hstopped⟩ := h
  obtain ⟨move, network, after⟩ := step
  cases move with
  | root | backtrack => exact ⟨htrail, hstopped⟩
  | decision => cases hmove
  | solution s =>
    refine ⟨congrArg (Mark.found s :: ·) htrail, hstopped.trans ?_⟩
    rw [← Mark.countP_found s]
    exact Iff.rfl

theorem cons_decision {x : VariableId} {a : Int} {status : Status} {network : Network}
    {after : Progress} (h : Curtails n cut ending full) :
    Curtails (n + 1) (⟨.decision x a status, network, after⟩ :: cut) ending
      (⟨.decision x a status, network, after⟩ :: full) where
  trail_eq := congrArg (Mark.decided x a :: ·) h.trail_eq
  stopped_iff := by
    rw [h.stopped_iff, trail_decision, Mark.countP_decided, Nat.add_le_add_iff_right]

end Curtails

theorem Move.react_decisionBudget (h : NeverStops unending) (hleft : made < budget) {move : Move}
    (hmove : move.decisions = 0) (wanted : Option Nat) :
    ∃ ending? unending' wanted', ending? ≠ some .stopped ∧ NeverStops unending' ∧
      move.react unending wanted = (ending?, unending', wanted') ∧
      move.react (Condition.decisionBudget budget made) wanted =
        (ending?, Condition.decisionBudget budget made, wanted') := by
  have hask := ask_of_neverStops h wanted
  have hon : ask (Condition.decisionBudget budget made) wanted =
      (none, Condition.decisionBudget budget made, wanted) := by
    have hnot : ¬(shouldStop (Condition.decisionBudget budget made)).1 = true :=
      mt of_decide_eq_true (Nat.not_le_of_lt hleft)
    rw [ask, if_neg hnot]
    rfl
  have hnone : none ≠ some Ending.stopped := by simp
  cases move with
  | root status =>
    rw [react, react]
    split
    · exact ⟨none, _, wanted, hnone, hask.2, congrArg (·, _) hask.1, hon⟩
    · exact ⟨none, unending, wanted, hnone, h, rfl, rfl⟩
  | decision => cases hmove
  | solution s =>
    refine ⟨_, unending, _, ?_, h, rfl, rfl⟩
    split
    · simp
    · exact hnone
  | backtrack => exact ⟨none, _, wanted, hnone, hask.2, congrArg (·, _) hask.1, hon⟩

/-- A budget ends a run at the decision that uses up what was left of it. -/
theorem Move.react_decision_decisionBudget (x : VariableId) (a : Int) (status : Status)
    (hbudget : budget = made + (left + 1)) (wanted : Option Nat) :
    (decision x a status).react (Condition.decisionBudget budget made) wanted =
      (if left = 0 then some .stopped else none, Condition.decisionBudget budget (made + 1),
        wanted) := by
  have hstop : (shouldStop (Condition.decisionBudget budget (made + 1))).1 = true ↔ left = 0 :=
    decide_eq_true_iff.trans (by omega)
  exact congrArg (·, _) (if_congr hstop rfl rfl)

/-- A run with some of a budget left goes the way of a run without one up to its last decision. -/
theorem curtails_play (h : NeverStops unending) (steps : List Step)
    (hbudget : budget = made + (left + 1)) (wanted : Option Nat) :
    Curtails (left + 1) (play steps (Condition.decisionBudget budget made) wanted).made
      (play steps (Condition.decisionBudget budget made) wanted).ending
      (play steps unending wanted).made := by
  induction steps generalizing unending made left wanted with
  | nil => exact .of_quiet (fun he => nomatch he) rfl
  | cons step steps ih =>
    -- only a decision takes from the budget, and the last one ends the run
    by_cases hmove : step.move.decisions = 0
    · have hless : made < budget := by omega
      obtain ⟨ending?, unending', wanted', hnot, hnever, hfull, hcut⟩ :=
        Move.react_decisionBudget h hless hmove wanted
      cases ending? with
      | some ending =>
        rw [play_cons_of_some hfull, play_cons_of_some hcut]
        exact .of_quiet (fun he => hnot (congrArg some he)) hmove
      | none =>
        rw [play_cons_of_none hfull, play_cons_of_none hcut]
        exact (ih hnever hbudget wanted').cons_quiet hmove
    · obtain ⟨move, network, after⟩ := step
      cases move with
      | root | solution | backtrack => exact absurd rfl hmove
      | decision x a status =>
        obtain ⟨hno, hnever⟩ := h.answer 1
        have hnot : ¬(shouldStop (decisionMade unending)).1 = true := Bool.eq_false_iff.mp hno
        have hfull : (Move.decision x a status).react unending wanted =
            (none, (shouldStop (decisionMade unending)).2, wanted) := congrArg (·, _) (if_neg hnot)
        have hcut := Move.react_decision_decisionBudget x a status hbudget wanted
        cases left with
        | zero =>
          rw [if_pos rfl] at hcut
          rw [play_cons_of_some hcut, play_cons_of_none hfull]
          exact (Curtails.zero rfl _).cons_decision
        | succ left =>
          rw [if_neg (Nat.succ_ne_zero left)] at hcut
          rw [play_cons_of_none hcut, play_cons_of_none hfull]
          have hrest : budget = made + 1 + (left + 1) := by omega
          exact (ih hnever hrest wanted).cons_decision

theorem Searches.curtails_play
    (hsearches : Searches options solver.network (solver.progress detail) steps g')
    (hroot : ¬solver.RootFails detail) (h : NeverStops unending) (budget : Nat)
    (wanted : Option Nat) :
    Curtails budget (play steps (Condition.decisions budget) wanted).made
      (play steps (Condition.decisions budget) wanted).ending (play steps unending wanted).made := by
  cases budget with
  | zero =>
    obtain ⟨outcome, below, -, rfl⟩ := hsearches.exists_explores hroot
    -- The question before the first decision already finds the budget used up.
    have hreact : (Move.root .consistent).react (Condition.decisions 0) wanted =
        (some .stopped, Condition.decisions 0, wanted) := rfl
    rw [play_cons_of_some hreact]
    exact Curtails.zero rfl _
  | succ left => exact FiniteDomain.curtails_play h steps (Nat.zero_add _).symm wanted

theorem upTo_trail_play (h : NeverStops unending) (steps : List Step) {limit : Option Nat}
    (hlimit : limit ≠ some 0) {k : Nat}
    (hk : k < (solutionsOf (play steps unending limit).made).length) :
    Mark.upTo (k + 1) (trail (play steps unending limit).made) = Mark.upTo (k + 1) (trail steps) ∧
      (solutionsOf (play steps unending limit).made).take (k + 1) =
        (solutionsOf steps).take (k + 1) := by
  match limit with
  | none => rw [play_of_neverStops h]; exact ⟨rfl, rfl⟩
  | some 0 => exact absurd rfl hlimit
  | some (n + 1) =>
    rw [(play_of_limit h steps n).1] at hk ⊢
    have hle : k + 1 ≤ n + 1 := hk.trans_le (List.length_take_le _ _)
    rw [trail_play h, List.take_take, Nat.min_eq_left hle]
    exact ⟨Mark.upTo_upTo_of_le hle _, rfl⟩

/-- The run makes fewer decisions than the budget, or none because the root is a dead end. -/
def Solver.Spares (solver : Solver) (detail : Option Level) (budget : Nat) (full : Run τ) : Prop :=
  full.solver.counters.decisions < solver.counters.decisions + budget ∨ solver.RootFails detail

/-- What a fresh budget makes of a full run. How many decisions that run has made at one of its
solutions is what the run makes that ends there. -/
structure Solver.Cuts (solver : Solver) (unending : τ) (detail : Option Level) (budget : Nat)
    (full : Run τ) (cut : Run Condition) : Prop where
  spared : solver.Spares detail budget full →
    cut.solver = full.solver ∧ cut.journal = full.journal ∧ cut.ending = full.ending
  stopped : ¬solver.Spares detail budget full → cut.ending = .stopped
  decisions : ¬solver.Spares detail budget full →
    cut.solver.counters.decisions = solver.counters.decisions + budget
  reported : ¬solver.Spares detail budget full →
    cut.journal.solutions <+: full.journal.solutions ∧
    ∀ k, k < full.journal.solutions.length → ∃ result part,
      solver.enumerate unending detail (some (k + 1)) = .ok (result, part) ∧
      part.journal.solutions = full.journal.solutions.take (k + 1) ∧
      (k < cut.journal.solutions.length ↔
        part.solver.counters.decisions < solver.counters.decisions + budget)

theorem Searches.ending_eq_stopped_iff
    (hsearches : Searches options solver.network (solver.progress detail) steps g')
    (h : NeverStops unending) (budget : Nat) (wanted : Option Nat) :
    (play steps (Condition.decisions budget) wanted).ending = .stopped ↔
      ¬solver.Spares detail budget (solver.played detail (play steps unending wanted)) := by
  by_cases hroot : solver.RootFails detail
  · refine iff_of_false (fun hend => ?_) fun hnot => hnot (.inr hroot)
    obtain ⟨status, network, hplay⟩ :=
      hsearches.play_of_rootFails hroot (Condition.decisions budget) wanted
    rw [hplay] at hend
    cases hend
  · rw [(hsearches.curtails_play hroot h budget wanted).stopped_iff, Solver.Spares,
      or_iff_left hroot, hsearches.decisions_played, Nat.add_lt_add_iff_left, Nat.not_lt]

theorem Searches.cuts (hsearches : Searches options solver.network (solver.progress detail) steps g')
    (hsearch : ∀ {τ : Type} [Termination τ] (condition : τ) (wanted : Option Nat),
      solver.search condition detail wanted =
        .ok (solver.played detail (play steps condition wanted)))
    (h : NeverStops unending) (budget : Nat) {limit : Option Nat} (hlimit : limit ≠ some 0) :
    solver.Cuts unending detail budget (solver.played detail (play steps unending limit))
      (solver.played detail (play steps (Condition.decisions budget) limit)) where
  spared hspares := by
    have hend := (hsearches.ending_eq_stopped_iff h budget limit).not_left.mpr hspares
    obtain ⟨hmade, hending⟩ := play_eq_of_ne_stopped h steps hend
    rw [Solver.played, Solver.played, hmade, hending]
    exact ⟨rfl, rfl, rfl⟩
  stopped hnot := (hsearches.ending_eq_stopped_iff h budget limit).mpr hnot
  decisions hnot := by
    have hroot : ¬solver.RootFails detail := fun hfails => hnot (.inr hfails)
    have hcurtails := hsearches.curtails_play hroot h budget limit
    have hstopped := (hsearches.ending_eq_stopped_iff h budget limit).mpr hnot
    rw [hsearches.decisions_played, hcurtails.trail_eq, Mark.countP_upToDecisions,
      Nat.min_eq_left (hcurtails.stopped_iff.mp hstopped)]
  reported hnot := by
    have hroot : ¬solver.RootFails detail := fun hfails => hnot (.inr hfails)
    have hcurtails := hsearches.curtails_play hroot h budget limit
    refine ⟨hsearches.isPrefix_reported h _ limit, fun k hk => ?_⟩
    have hpart : some (k + 1) ≠ some 0 := by simp
    rw [hsearches.solutions_played] at hk ⊢
    obtain ⟨hupTo, htake⟩ := upTo_trail_play h steps hlimit hk
    refine ⟨_, _, Solver.enumerate_eq_ok hpart (hsearch unending (some (k + 1))), ?_, ?_⟩
    · rw [htake]
      exact hsearches.reported_of_neverStops h hpart
    · rw [hsearches.solutions_played, hsearches.decisions_played, Nat.add_lt_add_iff_left,
        solutionsOf_eq_filterMap, hcurtails.trail_eq, trail_play h, ← hupTo]
      rw [solutionsOf_eq_filterMap] at hk
      exact Mark.lt_length_upToDecisions_iff hk

def Run.verdict (run : Run τ) : Verdict :=
  match run.journal.solutions.head?, run.ending with
  | some s, _ => .satisfiable s
  | none, .stopped => .unknown
  | none, _ => .unsatisfiable

theorem Solver.satisfy_eq_verdict {run : Run τ} {condition : τ}
    (h : solver.search condition detail (some 1) = .ok run) :
    solver.satisfy condition detail = .ok (run.verdict, run) := by
  rw [satisfy, h]
  rfl

theorem Searches.verdict_eq_unknown
    (hsearch : ∀ {τ : Type} [Termination τ] (condition : τ) (wanted : Option Nat),
      solver.search condition detail wanted =
        .ok (solver.played detail (play steps condition wanted)))
    {cut : Run Condition}
    (hcuts : solver.Cuts unending detail budget (solver.played detail (play steps unending (some 1))) cut)
    (hnot : ¬solver.Spares detail budget (solver.played detail (play steps unending (some 1)))) :
    cut.verdict = .unknown := by
  obtain ⟨hpre, hreported⟩ := hcuts.reported hnot
  have hnil : cut.journal.solutions = [] := by
    by_contra hne
    have hlength := List.length_pos_iff.mpr hne
    obtain ⟨result, part, hpart, -, hiff⟩ := hreported 0 (hlength.trans_le hpre.length_le)
    -- The run that ends with the first solution is the full run.
    have hone : some 1 ≠ some 0 := fun he => nomatch he
    rw [Solver.enumerate_eq_ok hone (hsearch unending (some 1))] at hpart
    cases hpart
    exact hnot (.inl (hiff.mp hlength))
  rw [Run.verdict, hnil, hcuts.stopped hnot]
  rfl

/-- A budget cuts a run at exactly its last decision, or changes nothing about it. Runs that share
one budget keep to it together. -/
theorem Solver.budget_cuts (hnet : net.Reachable) (hsolver : (ofNetwork net options).RunsTo solver)
    (hunending : NeverStops unending) (detail : Option Level) (budget : Nat) :
    (∃ verdict full verdict' cut, solver.satisfy unending detail = .ok (verdict, full) ∧
      solver.satisfy (Condition.decisions budget) detail = .ok (verdict', cut) ∧
      solver.Cuts unending detail budget full cut ∧
      (solver.Spares detail budget full → verdict' = verdict) ∧
      (¬solver.Spares detail budget full → verdict' = .unknown)) ∧
    (∀ limit, limit ≠ some 0 → ∃ result full result' cut,
      solver.enumerate unending detail limit = .ok (result, full) ∧
      solver.enumerate (Condition.decisions budget) detail limit = .ok (result', cut) ∧
      solver.Cuts unending detail budget full cut ∧
      result.solutions = full.journal.solutions ∧ result'.solutions = cut.journal.solutions ∧
      (solver.Spares detail budget full → result' = result) ∧
      (¬solver.Spares detail budget full → result'.isComplete = false)) ∧
    ∀ {τ' : Type} [Termination τ'] (condition : τ') (made : Nat),
      Shares budget made condition → made ≤ budget := by
  have hwf := hnet.wellFormed
  have hrests := hsolver.rests hwf
  obtain ⟨steps, g', hsearches, hsearch⟩ := hrests.search_eq hwf detail
  obtain ⟨rfl, rfl, -, -⟩ := hrests
  have hcuts {limit : Option Nat} (hlimit : limit ≠ some 0) :=
    hsearches.cuts hsearch hunending budget hlimit
  refine ⟨?_, fun limit hlimit => ?_, fun condition made hshares => hshares.within.2⟩
  · have hone := hcuts (fun he => nomatch he : some 1 ≠ some 0)
    refine ⟨_, _, _, _, satisfy_eq_verdict (hsearch unending (some 1)),
      satisfy_eq_verdict (hsearch (Condition.decisions budget) (some 1)), hone, fun hspares => ?_,
      Searches.verdict_eq_unknown hsearch hone⟩
    obtain ⟨-, hjournal, hending⟩ := hone.spared hspares
    rw [Run.verdict, Run.verdict, hjournal, hending]
  · have hcuts := hcuts hlimit
    refine ⟨_, _, _, _, enumerate_eq_ok hlimit (hsearch unending limit),
      enumerate_eq_ok hlimit (hsearch (Condition.decisions budget) limit), hcuts, rfl, rfl,
      fun hspares => ?_, fun hnot => ?_⟩
    · obtain ⟨-, hjournal, hending⟩ := hcuts.spared hspares
      rw [hjournal, hending]
    · rw [hcuts.stopped hnot]
      rfl

/-- After a run that was stopped, and for a budget that is a part of other conditions, on the pair of
ordered variables. -/
theorem Solver.budget_cuts_orderedPair :
    let net := Network.orderedPair
    let first := ofNetwork net ⟨.check, .inputOrder, .random, 7⟩
    let whole := some (Combined.mk Condition.never (Condition.decisions 1))
    net.Reachable ∧ NeverStops Condition.never ∧ ∃ result run made,
      first.enumerate whole none none = .ok (result, run) ∧ first.RunsTo run.solver ∧
      (Shares 1 (0 + made) run.condition ∧ 0 + made ≤ 1) ∧
      (∃ verdict full verdict' cut,
        run.solver.satisfy Condition.never none = .ok (verdict, full) ∧
        run.solver.satisfy (Condition.decisions 1) none = .ok (verdict', cut) ∧
        run.solver.Cuts Condition.never none 1 full cut ∧
        (run.solver.Spares none 1 full → verdict' = verdict) ∧
        (¬run.solver.Spares none 1 full → verdict' = .unknown)) := by
  intro net first whole
  have hnet : net.Reachable := Network.reachable_orderedPair
  have hnever : NeverStops Condition.never := Condition.neverStops_never
  have hfirst : first.RunsTo first := .refl
  obtain ⟨steps, g', hsearches, hsearch⟩ :=
    (hfirst.rests hnet.wellFormed).search_eq hnet.wellFormed none
  have hrun := enumerate_eq_ok (fun he => nomatch he : none ≠ some 0) (hsearch whole none)
  have hmade := hsearches.decisions_played whole none
  have hsecond : first.RunsTo _ := .enumerate hfirst hrun
  have hshares : Shares 1 0 whole := .inside .fresh (.some (.second Condition.never .refl))
  have hshared : Shares 1 (0 + _) _ := .enumerate hshares hnet hfirst hrun hmade
  obtain ⟨hsatisfy, -, hbudget⟩ := budget_cuts hnet hsecond hnever none 1
  exact ⟨hnet, hnever, _, _, _, hrun, hsecond, ⟨hshared, hbudget _ _ hshared⟩, hsatisfy⟩

end FiniteDomain
