import FiniteDomain.Proofs.Search.Trail
/-!
# A budget shared between runs

However a budget of decisions is put inside other conditions, it is told of every decision of every
run. So all the runs that share one budget make no more decisions than it allows.
-/
namespace FiniteDomain

namespace Termination

/-- The first condition is the second or a part of it. -/
inductive Within {τ : Type} [Termination τ] (condition : τ) :
    {τ' : Type} → [Termination τ'] → τ' → Prop
  | refl : Within condition condition
  | some {τ' : Type} [Termination τ'] {whole : τ'} :
    Within condition whole → Within condition (some whole)
  | first {α β : Type} [Termination α] [Termination β] {whole : α} (other : β) :
    Within condition whole → Within condition (Combined.mk whole other)
  | second {α β : Type} [Termination α] [Termination β] (other : α) {whole : β} :
    Within condition whole → Within condition (Combined.mk other whole)
  | eitherFirst {whole : Condition} (other : Condition) :
    Within condition whole → Within condition (Condition.either whole other)
  | eitherSecond (other : Condition) {whole : Condition} :
    Within condition whole → Within condition (Condition.either other whole)

end Termination

open Termination

/-- A fresh budget of decisions, or what contains it, after runs one after another with it in their
conditions that made so many decisions in all. -/
inductive Solver.Shares (budget : Nat) : Nat → {τ : Type} → [Termination τ] → τ → Prop
  | fresh : Shares budget 0 (Condition.decisions budget)
  | inside {τ τ' : Type} [Termination τ] [Termination τ'] {condition : τ} {whole : τ'} {made : Nat} :
    Shares budget made condition → Within condition whole → Shares budget made whole
  | satisfy {τ : Type} [Termination τ] {condition : τ} {made more : Nat} {net : Network}
    {options : Options} {solver : Solver} {detail : Option Level} {verdict : Verdict} {run : Run τ} :
    Shares budget made condition → net.Reachable → (ofNetwork net options).RunsTo solver →
    solver.satisfy condition detail = .ok (verdict, run) →
    run.solver.counters.decisions = solver.counters.decisions + more →
    Shares budget (made + more) run.condition
  | enumerate {τ : Type} [Termination τ] {condition : τ} {made more : Nat} {net : Network}
    {options : Options} {solver : Solver} {detail : Option Level} {limit : Option Nat}
    {result : Enumeration} {run : Run τ} :
    Shares budget made condition → net.Reachable → (ofNetwork net options).RunsTo solver →
    solver.enumerate condition detail limit = .ok (result, run) →
    run.solver.counters.decisions = solver.counters.decisions + more →
    Shares budget (made + more) run.condition

variable {τ τ' τ'' : Type} [Termination τ] [Termination τ'] [Termination τ''] {condition : τ}
  {whole : τ'} {outer : τ''} {budget made : Nat} {net : Network} {options : Options}
  {solver : Solver} {detail : Option Level} {steps : List Step} {g' : Progress}

namespace Termination.Within

theorem trans (h : Within condition whole) (h' : Within whole outer) : Within condition outer := by
  induction h' with
  | refl => exact h
  | some _ ih => exact ih.some
  | first other _ ih => exact ih.first other
  | second other _ ih => exact ih.second other
  | eitherFirst other _ ih => exact ih.eitherFirst other
  | eitherSecond other _ ih => exact ih.eitherSecond other

theorem decisionMade (h : Within condition whole) :
    Within (decisionMade condition) (decisionMade whole) := by
  induction h with
  | refl => exact .refl
  | some _ ih => exact ih.some
  | first other _ ih => exact ih.first _
  | second other _ ih => exact ih.second _
  | eitherFirst other _ ih => exact ih.eitherFirst _
  | eitherSecond other _ ih => exact ih.eitherSecond _

theorem stops (h : Within condition whole) (hstop : (shouldStop condition).1 = true) :
    (shouldStop whole).1 = true := by
  induction h with
  | refl => exact hstop
  | some _ ih => exact ih
  | first other _ ih => rw [Combined.shouldStop_eq, if_pos ih]
  | second other _ ih =>
    rw [Combined.shouldStop_eq]
    split
    · rfl
    · exact ih
  | eitherFirst other _ ih => rw [Condition.shouldStop_either, if_pos ih]
  | eitherSecond other _ ih =>
    rw [Condition.shouldStop_either]
    split
    · rfl
    · exact ih

theorem asked (h : Within condition whole) (hsame : (shouldStop condition).2 = condition) :
    Within condition (shouldStop whole).2 := by
  induction h with
  | refl => rw [hsame]; exact .refl
  | some _ ih => exact ih.some
  | first other _ ih =>
    rw [Combined.shouldStop_eq]
    split
    · exact ih.first _
    · exact ih.first _
  | second other h ih =>
    rw [Combined.shouldStop_eq]
    split
    · exact h.second _
    · exact ih.second _
  | eitherFirst other _ ih =>
    rw [Condition.shouldStop_either]
    split
    · exact ih.eitherFirst _
    · exact ih.eitherFirst _
  | eitherSecond other h ih =>
    rw [Condition.shouldStop_either]
    split
    · exact h.eitherSecond _
    · exact ih.eitherSecond _

end Termination.Within

theorem Move.react_within (h : Within (Condition.decisionBudget budget made) condition)
    (hleft : made < budget) (move : Move) (wanted : Option Nat) :
    Within (Condition.decisionBudget budget (made + move.decisions))
      (move.react condition wanted).2.1 ∧
    ((move.react condition wanted).1 = none → made + move.decisions < budget) := by
  cases move with
  | root status =>
    rw [react]
    split
    · exact ⟨h.asked rfl, fun _ => hleft⟩
    · exact ⟨h, fun _ => hleft⟩
  | decision x a status =>
    have htold : Within (Condition.decisionBudget budget (made + 1)) (decisionMade condition) :=
      h.decisionMade
    refine ⟨htold.asked rfl, fun hnone => ?_⟩
    by_contra hnot
    have hspent : (shouldStop (Condition.decisionBudget budget (made + 1))).1 = true :=
      decide_eq_true (Nat.le_of_not_lt hnot)
    rw [react, ask, if_pos (htold.stops hspent)] at hnone
    cases hnone
  | solution s => exact ⟨h, fun _ => hleft⟩
  | backtrack => exact ⟨h.asked rfl, fun _ => hleft⟩

theorem play_within (h : Within (Condition.decisionBudget budget made) condition)
    (hleft : made < budget) (steps : List Step) (wanted : Option Nat) :
    let spent := made +
      ((play steps condition wanted).made.map fun step => step.move.decisions).sum
    Within (Condition.decisionBudget budget spent) (play steps condition wanted).condition ∧
      spent ≤ budget := by
  induction steps generalizing condition made wanted with
  | nil => exact ⟨h, hleft.le⟩
  | cons step steps ih =>
    obtain ⟨htold, hon⟩ := step.move.react_within h hleft wanted
    rcases hreact : step.move.react condition wanted with ⟨ending?, condition', wanted'⟩
    rw [hreact] at htold hon
    cases ending? with
    | some ending =>
      rw [play_cons_of_some hreact]
      refine ⟨htold, ?_⟩
      have hone : step.move.decisions ≤ 1 := by cases step.move <;> simp [Move.decisions]
      simp only [List.map_singleton, List.sum_singleton]
      omega
    | none =>
      rw [play_cons_of_none hreact]
      have hrest := ih htold (hon rfl) wanted'
      simpa [Nat.add_assoc] using hrest

/-- A whole run makes no more decisions than are left of a budget, also if nothing is left. -/
theorem Searches.play_within {solver : Solver}
    (hsearches : Searches options solver.network (solver.progress detail) steps g')
    (h : Within (Condition.decisionBudget budget made) condition) (hleft : made ≤ budget)
    (wanted : Option Nat) :
    let spent := made +
      ((play steps condition wanted).made.map fun step => step.move.decisions).sum
    Within (Condition.decisionBudget budget spent) (play steps condition wanted).condition ∧
      spent ≤ budget := by
  rcases hleft.lt_or_eq with hless | rfl
  · exact FiniteDomain.play_within h hless steps wanted
  · by_cases hroot : solver.RootFails detail
    · obtain ⟨status, network, hplay⟩ := hsearches.play_of_rootFails hroot condition wanted
      rw [hplay]
      exact ⟨h, Nat.le_refl _⟩
    · obtain ⟨outcome, below, -, rfl⟩ := hsearches.exists_explores hroot
      -- Before the first decision the condition is asked, and the budget is used up.
      have hspent : (shouldStop (Condition.decisionBudget made made)).1 = true :=
        decide_eq_true (Nat.le_refl made)
      have hconsistent : Status.consistent.isConsistent = true := rfl
      have hreact : (Move.root .consistent).react condition wanted =
          (some .stopped, (shouldStop condition).2, wanted) := by
        rw [Move.react, if_pos hconsistent, ask, if_pos (h.stops hspent)]
      rw [play_cons_of_some hreact]
      exact ⟨h.asked rfl, Nat.le_refl _⟩

theorem Solver.Rests.within_played (hrests : solver.Rests net options)
    (h : Within (Condition.decisionBudget budget made) condition) (hleft : made ≤ budget)
    (hsearches : Searches options net (solver.progress detail) steps g') {wanted : Option Nat}
    {more : Nat} (hmore : (solver.played detail (play steps condition wanted)).solver.counters.decisions =
      solver.counters.decisions + more) :
    Within (Condition.decisionBudget budget (made + more)) (play steps condition wanted).condition ∧
      made + more ≤ budget := by
  rw [hsearches.decisions_played, ← sum_decisions, Nat.add_left_cancel_iff] at hmore
  obtain ⟨rfl, -, -, -⟩ := hrests
  rw [← hmore]
  exact hsearches.play_within h hleft wanted

theorem Solver.Shares.within (h : Solver.Shares budget made condition) :
    Within (Condition.decisionBudget budget made) condition ∧ made ≤ budget := by
  induction h with
  | fresh => exact ⟨.refl, Nat.zero_le budget⟩
  | inside _ hwithin ih => exact ⟨ih.1.trans hwithin, ih.2⟩
  | @satisfy _ _ condition made more net options solver detail verdict run _ hnet hsolver hrun hmore ih =>
    have hrests := hsolver.rests hnet.wellFormed
    obtain ⟨steps, g', hsearches, hsearch⟩ := hrests.search_eq hnet.wellFormed detail
    obtain ⟨verdict', hverdict, -⟩ := Solver.satisfy_eq_ok (hsearch condition (some 1))
    rw [hverdict] at hrun
    cases hrun
    exact hrests.within_played ih.1 ih.2 hsearches hmore
  | @enumerate _ _ condition made more net options solver detail limit result run _ hnet hsolver hrun
      hmore ih =>
    have hrests := hsolver.rests hnet.wellFormed
    by_cases hlimit : limit = some 0
    · rw [Solver.enumerate, if_pos hlimit] at hrun
      cases hrun
      obtain rfl : more = 0 := Nat.left_eq_add.mp hmore
      exact ih
    · obtain ⟨steps, g', hsearches, hsearch⟩ := hrests.search_eq hnet.wellFormed detail
      rw [Solver.enumerate_eq_ok hlimit (hsearch condition limit)] at hrun
      cases hrun
      exact hrests.within_played ih.1 ih.2 hsearches hmore

end FiniteDomain
