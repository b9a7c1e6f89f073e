import FiniteDomain.Proofs.Search.Loop
import FiniteDomain.Proofs.Search.Trail
import Mathlib.Algebra.BigOperators.Group.Finset.Basic
import Mathlib.Algebra.BigOperators.Ring.Finset
import Mathlib.Tactic.Ring
/-!
# How far a search goes

A search tree has a level for each unassigned variable, and below each node at most one decision for
each value of a domain. So every run ends, whatever its condition says, after a number of decisions
and rounds that the sizes of the domains bound.
-/
namespace FiniteDomain

open scoped BigOperators

/-- No unassigned variable has more current values than `d`. -/
def Network.Bounded (net : Network) (d : Nat) : Prop :=
  ∀ x ∈ net.unassigned, ∀ v, net.vars.get? x = some v → v.currentDomain.length ≤ d

/-- The number of inner nodes of a tree with `m` levels and `d` branches below each of them. -/
def innerNodes (d m : Nat) : Nat := ∑ i ∈ Finset.range m, d ^ i

variable {τ : Type} [Termination τ] {options : Options} {goal : Goal} {depth d m p q : Nat}
  {net : Network} {g g' : Progress} {steps : List Step} {x : VariableId} {a : Int}
  {outcome : Outcome} {worth : Move → Nat} {solver : Solver}

theorem innerNodes_succ : innerNodes d (m + 1) = 1 + d * innerNodes d m := by
  rw [innerNodes, innerNodes, Finset.sum_range_succ', Finset.mul_sum, pow_zero, Nat.add_comm]
  simp only [pow_succ']

theorem mul_innerNodes : d * innerNodes d m = ∑ i ∈ Finset.range m, d ^ (i + 1) := by
  rw [innerNodes, Finset.mul_sum]
  simp only [pow_succ']

namespace Network

theorem Bounded.without (h : net.Bounded d) (rs : List Removal) : (net.without rs).Bounded d := by
  intro x hx w hw
  rw [unassigned_without] at hx
  rw [get?_without] at hw
  obtain ⟨v, hv, rfl⟩ := Option.map_eq_some_iff.mp hw
  rw [Variable.currentDomain_without]
  exact (List.length_filter_le _ _).trans (h x hx v hv)

theorem Bounded.assigning (h : net.Bounded d) (hx : net.Knows x) (a : Int) :
    (net.assigning x a).Bounded d := by
  intro y hy w hw
  rw [unassigned_assigning hx, List.mem_filter] at hy
  have hyx : y ≠ x := of_decide_eq_true hy.2
  rw [get?_assigning, if_neg hyx] at hw
  exact h y hy.1 w hw

theorem Bounded.deciding (h : net.Bounded d) (hx : net.Knows x) (a : Int) (outcome : Outcome) :
    (net.deciding x a outcome).Bounded d :=
  (h.assigning hx a).without outcome.removed

end Network

/-- Decisions are worth at most `p` and backtracks at most `q`, and nothing else is worth anything. -/
structure Move.Weighs (worth : Move → Nat) (p q : Nat) : Prop where
  decision : ∀ x a status, worth (.decision x a status) ≤ p
  backtrack : worth .backtrack ≤ q
  solution : ∀ s, worth (.solution s) = 0
  root : ∀ status, worth (.root status) = 0

theorem Move.weighs_decisions : Weighs decisions 1 0 :=
  ⟨fun _ _ _ => le_rfl, le_rfl, fun _ => rfl, fun _ => rfl⟩

theorem Move.weighs_rounds : Weighs rounds 1 1 :=
  ⟨fun _ _ _ => le_rfl, le_rfl, fun _ => rfl, fun _ => rfl⟩

/-- What a goal can be worth with `m` variables unassigned. -/
def Goal.bound (d p q m : Nat) : Goal → Nat
  | node => (q + d * p) * innerNodes d m
  | values _ as => q + as.length * (p + (q + d * p) * innerNodes d (m - 1))

theorem Goal.bound_values_le {as : List Int} (hlength : as.length ≤ d) :
    (values x as).bound d p q (m + 1) ≤ node.bound d p q (m + 1) := by
  have hmul := Nat.mul_le_mul_right (p + (q + d * p) * innerNodes d m) hlength
  calc q + as.length * (p + (q + d * p) * innerNodes d m)
      ≤ q + d * (p + (q + d * p) * innerNodes d m) := Nat.add_le_add_left hmul q
    _ = (q + d * p) * innerNodes d (m + 1) := by rw [innerNodes_succ]; ring

theorem Goal.bound_values_cons {b : Int} {as : List Int} :
    (values x (b :: as)).bound d p q (m + 1) =
      p + node.bound d p q m + (values x as).bound d p q (m + 1) := by
  simp only [bound, List.length_cons, Nat.add_sub_cancel]
  ring

/-- The steps of an exploration are worth at most what its goal is. -/
theorem Explores.sum_worth_le (hworth : Move.Weighs worth p q)
    (h : Explores options goal depth net g steps g') (hbounded : net.Bounded d) :
    (steps.map fun step => worth step.move).sum ≤ goal.bound d p q net.unassigned.length := by
  induction h with
  | @leaf depth net g s =>
    rw [List.map_singleton, List.sum_singleton, hworth.solution]
    exact Nat.zero_le _
  | @node depth net g g' x v values generator steps hselect hv horder _ ih =>
    have hx := VariableSelection.mem_of_select hselect
    obtain ⟨m, hm⟩ := Nat.exists_eq_add_one.mpr (List.length_pos_of_mem hx)
    have hperm := options.valueSelection.order_perm v.currentDomain g.generator
    rw [horder] at hperm
    have hlength : values.length ≤ d := hperm.length_eq.trans_le (hbounded x hx v hv)
    have hvalues := ih hbounded
    rw [hm] at hvalues ⊢
    exact hvalues.trans (Goal.bound_values_le hlength)
  | @usedUp x depth net g =>
    rw [List.map_singleton, List.sum_singleton, Goal.bound, List.length_nil, Nat.zero_mul]
    exact hworth.backtrack
  | @deadEnd x a rest depth net g g' name outcome steps hdecides _ _ ih =>
    have hm : (net.deciding x a outcome).unassigned.length + 1 = net.unassigned.length :=
      Network.length_unassigned_deciding hdecides.current.knows hdecides.free
    have hrest := ih hbounded
    rw [← hm] at hrest ⊢
    rw [List.map_cons, List.sum_cons, Goal.bound_values_cons]
    exact Nat.add_le_add ((hworth.decision x a outcome.status).trans (Nat.le_add_right p _)) hrest
  | @descend x a rest depth net g g₁ g' name outcome below steps hdecides _ _ _ ihBelow ihRest =>
    have hknows := hdecides.current.knows
    have hm : (net.deciding x a outcome).unassigned.length + 1 = net.unassigned.length :=
      Network.length_unassigned_deciding hknows hdecides.free
    have hbelow := ihBelow (hbounded.deciding hknows a outcome)
    have hrest := ihRest hbounded
    rw [← hm] at hrest ⊢
    rw [List.map_cons, List.sum_cons, List.map_append, List.sum_append, ← Nat.add_assoc,
      Goal.bound_values_cons]
    exact Nat.add_le_add (Nat.add_le_add (hworth.decision x a outcome.status) hbelow) hrest

theorem Searches.sum_worth_le (hworth : Move.Weighs worth p q)
    (h : Searches options net g steps g') (hbounded : net.Bounded d) :
    (steps.map fun step => worth step.move).sum ≤
      (q + d * p) * innerNodes d net.unassigned.length := by
  cases h with
  | failed =>
    rw [List.map_singleton, List.sum_singleton, hworth.root]
    exact Nat.zero_le _
  | @explored outcome below g' _ _ hexplored =>
    have hbelow := hexplored.sum_worth_le hworth (hbounded.without outcome.removed)
    rw [Network.unassigned_without] at hbelow
    rw [List.map_cons, List.sum_cons, hworth.root, Nat.zero_add]
    exact hbelow

/-- Every run ends. With at most `d` values in the domain of each of `m` unassigned variables, it makes
at most `d + d ^ 2 + ... + d ^ m` decisions. -/
theorem Solver.search_terminates (hnet : net.Reachable)
    (hsolver : (ofNetwork net options).RunsTo solver) (condition : τ) (detail : Option Level)
    (wanted : Option Nat) :
    ∃ run, solver.search condition detail wanted = .ok run ∧
      (∃ enough, ∀ n ≥ enough, solver.searchWithin n condition detail wanted = .ok (some run)) ∧
      ∀ d, net.Bounded d →
        (∀ n, (d + 1) * ∑ i ∈ Finset.range net.unassigned.length, d ^ i < n →
          solver.searchWithin n condition detail wanted = .ok (some run)) ∧
        run.solver.counters.decisions ≤ solver.counters.decisions +
          ∑ i ∈ Finset.range net.unassigned.length, d ^ (i + 1) := by
  have hwf := hnet.wellFormed
  have hrests := hsolver.rests hwf
  obtain ⟨steps, g', hsearches, hsearch⟩ := hrests.search_eq hwf detail
  have hwithin (n : Nat) (hn : roundsOf steps < n) :
      solver.searchWithin n condition detail wanted =
        .ok (some (solver.played detail (play steps condition wanted))) := by
    obtain ⟨rfl, rfl, -, -⟩ := hrests
    exact hsearches.searchWithin_eq hwf hn condition wanted
  refine ⟨_, hsearch condition wanted, ⟨roundsOf steps + 1, hwithin⟩, fun d hbounded => ⟨?_, ?_⟩⟩
  · intro n hn
    have hrounds := hsearches.sum_worth_le Move.weighs_rounds hbounded
    rw [Nat.mul_one, Nat.add_comm 1 d] at hrounds
    exact hwithin n (hrounds.trans_lt hn)
  · have hdecisions := hsearches.sum_worth_le Move.weighs_decisions hbounded
    rw [Nat.mul_one, Nat.zero_add, mul_innerNodes, sum_decisions] at hdecisions
    have hmade := (isPrefix_made steps condition wanted).sublist.filterMap fun step => step.move.mark
    rw [hsearches.decisions_played]
    exact Nat.add_le_add_left ((hmade.countP_le).trans hdecisions) _

theorem Network.bounded_orderedPair : orderedPair.Bounded 2 := by
  intro x _ v hv
  match x with
  | ⟨0⟩ | ⟨1⟩ =>
    obtain rfl := Option.some.inj hv
    exact le_rfl
  | ⟨_ + 2⟩ => cases hv

theorem Solver.search_terminates_orderedPair :
    let net := Network.orderedPair
    let first := ofNetwork net ⟨.check, .smallestDomain, .random, 7⟩
    net.Reachable ∧ net.Bounded 2 ∧ ∃ verdict run,
      first.satisfy (Condition.decisions 1) none = .ok (verdict, run) ∧
      first.RunsTo run.solver ∧
      ∃ run', run.solver.search Condition.never none none = .ok run' ∧
        (∃ enough, ∀ n ≥ enough,
          run.solver.searchWithin n Condition.never none none = .ok (some run')) ∧
        (∀ n, 9 < n → run.solver.searchWithin n Condition.never none none = .ok (some run')) ∧
        run'.solver.counters.decisions ≤ run.solver.counters.decisions + 6 := by
  intro net first
  have hnet : net.Reachable := Network.reachable_orderedPair
  have hbounded : net.Bounded 2 := Network.bounded_orderedPair
  have hfirst : first.RunsTo first := .refl
  obtain ⟨steps, g', -, hsearch⟩ := (hfirst.rests hnet.wellFormed).search_eq hnet.wellFormed none
  obtain ⟨verdict, hrun, -⟩ := satisfy_eq_ok (hsearch (Condition.decisions 1) (some 1))
  have hsecond : first.RunsTo _ := .satisfy hfirst hrun
  obtain ⟨run', hrun', henough, hbound⟩ := search_terminates hnet hsecond Condition.never none none
  exact ⟨hnet, hbounded, verdict, _, hrun, hsecond, run', hrun', henough, hbound 2 hbounded⟩

end FiniteDomain
