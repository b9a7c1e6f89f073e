import FiniteDomain.Proofs.Search.Limit
import Mathlib.Data.List.Sort
/-!
# The order of the solutions

With variables in input order and values in domain order, a search goes through the completions in
lexicographic order. The order does not depend on what is pruned along the way, so that every
propagator reports the same sequence.
-/
namespace FiniteDomain

namespace Network

/-- Where a value stands in the full domain of a variable. -/
def position (net : Network) (x : VariableId) (a : Int) : Nat :=
  ((net.vars.get? x).elim [] Variable.fullDomain).idxOf a

/-- At the first variable with different values, the value of the first solution stands earlier in
the full domain. -/
def Precedes (net : Network) (s s' : Solution) : Prop :=
  ∃ x a b, s.get? x = some a ∧ s'.get? x = some b ∧ net.position x a < net.position x b ∧
    ∀ y : VariableId, y.index < x.index → s.get? y = s'.get? y

structure Least (net : Network) (s : Solution) : Prop where
  solved : net.SolvedBy s
  offers : net.Offers s
  precedes : ∀ s', net.SolvedBy s' → net.Offers s' → s' = s ∨ net.Precedes s s'

end Network

/-- The values left to try stand in the order of the full domain, and every earlier variable is
assigned. -/
def Goal.Ordered (net : Network) (goal : Goal) : Prop :=
  match goal with
  | node => True
  | values x as => as.Pairwise (fun a b => net.position x a < net.position x b) ∧
      ∀ y : VariableId, y.index < x.index → ∃ b, net.assigned y = some b

variable {τ : Type} [Termination τ] {unending : τ} {options : Options} {goal : Goal} {depth : Nat}
  {net : Network} {g g' : Progress} {steps : List Step} {x y : VariableId} {a : Int}
  {outcome : Outcome} {s s' : Solution}

namespace Network

theorem Precedes.asymm (h : net.Precedes s s') : ¬net.Precedes s' s := by
  obtain ⟨x, a, b, ha, hb, hless, hbefore⟩ := h
  intro h'
  obtain ⟨x', b', a', hb', ha', hless', hbefore'⟩ := h'
  rcases Nat.lt_trichotomy x.index x'.index with hx | hx | hx
  · have heq := hbefore' x hx
    rw [ha, hb] at heq
    cases heq
    exact Nat.lt_irrefl _ hless
  · obtain rfl : x = x' := Store.index_inj.mp hx
    cases ha.symm.trans ha'
    cases hb.symm.trans hb'
    exact Nat.lt_asymm hless hless'
  · have heq := hbefore x' hx
    rw [ha', hb'] at heq
    cases heq
    exact Nat.lt_irrefl _ hless'

instance (net : Network) : Std.Asymm net.Precedes := ⟨fun _ _ => Precedes.asymm⟩

@[simp] theorem position_without (net : Network) (rs : List Removal) :
    (net.without rs).position = net.position := by
  funext x a
  rw [position, position, get?_without]
  cases net.vars.get? x <;> simp

@[simp] theorem position_assigning (net : Network) (x : VariableId) (a : Int) :
    (net.assigning x a).position = net.position := by
  funext y b
  rw [position, position, get?_assigning]
  by_cases hy : y = x
  · rw [if_pos hy]
    cases net.vars.get? y <;> rfl
  · rw [if_neg hy]

theorem precedes_congr {net' : Network} (h : net'.position = net.position) :
    net'.Precedes = net.Precedes := by
  funext s s'
  rw [Precedes, Precedes, h]

theorem pairwise_index_unassigned (net : Network) :
    net.unassigned.Pairwise fun x y => x.index < y.index := by
  rw [unassigned_eq_filter]
  refine List.Pairwise.filter _ (List.pairwise_map.mpr ?_)
  exact List.pairwise_lt_range

theorem exists_assigned_of_select (hselect : VariableSelection.inputOrder.select net = some x)
    (hy : y.index < x.index) : ∃ b, net.assigned y = some b := by
  obtain ⟨rest, hrest⟩ := List.head?_eq_some_iff.mp hselect
  have hx := (mem_unassigned.mp (VariableSelection.mem_of_select hselect)).1
  obtain ⟨v, hv⟩ := hx
  have hknown : net.Knows y := Store.get?_of_lt_size (Nat.lt_trans hy (Store.lt_size_of_get? hv))
  apply Option.ne_none_iff_exists'.mp
  intro hfree
  have hmem := mem_unassigned.mpr ⟨hknown, hfree⟩
  have hpairwise := net.pairwise_index_unassigned
  rw [hrest] at hmem hpairwise
  rcases List.mem_cons.mp hmem with rfl | hmem
  · exact Nat.lt_irrefl _ hy
  · exact Nat.lt_asymm hy (List.rel_of_pairwise_cons hpairwise hmem)

theorem pairwise_position {v : Variable} (hv : net.vars.get? x = some v) (hwf : v.WellFormed) :
    v.currentDomain.Pairwise fun a b => net.position x a < net.position x b := by
  have hposition (a : Int) : net.position x a = v.fullDomain.idxOf a := by
    rw [position, hv, Option.elim_some]
  refine List.Pairwise.sublist v.currentDomain_sublist (List.pairwise_iff_getElem.mpr ?_)
  intro i j hi hj hij
  rwa [hposition, hposition, hwf.nodup.idxOf_getElem, hwf.nodup.idxOf_getElem]

theorem CompletedBy.precedes (hs : net.CompletedBy s) (hs' : net.CompletedBy s') {b : Int}
    (hbefore : ∀ y : VariableId, y.index < x.index → ∃ c, net.assigned y = some c)
    (ha : s.get? x = some a) (hb : s'.get? x = some b)
    (hless : net.position x a < net.position x b) : net.Precedes s s' := by
  refine ⟨x, a, b, ha, hb, hless, fun y hy => ?_⟩
  obtain ⟨c, hc⟩ := hbefore y hy
  rw [hs.agrees hc, hs'.agrees hc]

end Network

/-- An exploration finds its solutions in lexicographic order. -/
theorem Explores.pairwise_precedes (h : Explores options goal depth net g steps g')
    (hselection : options.variableSelection = .inputOrder)
    (horder : options.valueSelection = .inDomainOrder) (hnet : net.Explorable g.propagator.kind)
    (hgoal : goal.Ordered net) : (solutionsOf steps).Pairwise net.Precedes := by
  induction h with
  | leaf => exact List.pairwise_singleton _ _
  | @node depth net g g' x v values generator steps hselect hv hvalues _ ih =>
    rw [horder] at hvalues
    obtain rfl : v.currentDomain = values := (Prod.mk.inj hvalues).1
    rw [hselection] at hselect
    exact ih hnet ⟨Network.pairwise_position hv (hnet.wellFormed.domains hv),
      fun y => Network.exists_assigned_of_select hselect⟩
  | usedUp => exact List.Pairwise.nil
  | deadEnd hdecides _ _ ih => exact ih (hdecides.kind_eq ▸ hnet) ⟨hgoal.1.of_cons, hgoal.2⟩
  | @descend x a rest depth net g g₁ g' name outcome below steps hdecides hstatus hbelow hleft
      ihBelow ihRest =>
    have hkind : g₁.propagator.kind = g.propagator.kind := hbelow.kind_eq.trans hdecides.kind_eq
    have hnet' := hdecides.explorable hnet hstatus
    obtain ⟨hvalues, hbefore⟩ := hgoal
    have hprecedes : (net.deciding x a outcome).Precedes = net.Precedes :=
      Network.precedes_congr (by rw [Network.deciding, Network.position_without,
        Network.position_assigning])
    change (solutionsOf (below ++ steps)).Pairwise net.Precedes
    rw [solutionsOf_append, List.pairwise_append]
    refine ⟨hprecedes ▸ ihBelow hnet' trivial, ihRest (hkind ▸ hnet) ⟨hvalues.of_cons, hbefore⟩,
      fun s hs s' hs' => ?_⟩
    -- Below the decision its value stands, and the other solutions have a later one.
    obtain ⟨hcompleted, ha⟩ :=
      hdecides.completedBy_iff.mp ((hbelow.mem_solutionsOf_iff hnet').mp hs).1
    obtain ⟨hcompleted', b, hb, hsb⟩ := (hleft.mem_solutionsOf_iff (hkind ▸ hnet)).mp hs'
    exact hcompleted.precedes hcompleted' hbefore ha hsb (List.rel_of_pairwise_cons hvalues hb)

theorem Searches.pairwise_precedes (h : Searches options net g steps g')
    (hselection : options.variableSelection = .inputOrder)
    (horder : options.valueSelection = .inDomainOrder) (hwf : net.WellFormed) (hfree : net.Free) :
    (solutionsOf steps).Pairwise net.Precedes := by
  cases h with
  | failed => exact List.Pairwise.nil
  | @explored outcome steps g' hbehaves hstatus hexplored =>
    have hnet := Progress.explorable_propagated hbehaves hwf hfree hstatus
    rw [← Network.precedes_congr (net.position_without outcome.removed)]
    exact hexplored.pairwise_precedes hselection horder hnet trivial

theorem Network.least_of_pairwise {rest : List Solution}
    (hpairwise : (s :: rest).Pairwise net.Precedes)
    (hmem : ∀ s', s' ∈ s :: rest ↔ net.SolvedBy s' ∧ net.Offers s') : net.Least s := by
  obtain ⟨hs, hoffers⟩ := (hmem s).mp (List.mem_cons_self ..)
  refine ⟨hs, hoffers, fun s' hs' hoffers' => ?_⟩
  rcases List.mem_cons.mp ((hmem s').mpr ⟨hs', hoffers'⟩) with rfl | hrest
  · exact .inl rfl
  · exact .inr (List.rel_of_pairwise_cons hpairwise hrest)

/-- Every propagator reports the first solutions in lexicographic order, up to the limit, and the
least of them is the verdict. -/
theorem Solver.enumerate_lexicographic (hnet : net.Reachable) (hfree : net.Free)
    (hunending : Termination.NeverStops unending) :
    ∃ all : List Solution, all.Pairwise net.Precedes ∧
      (∀ s, s ∈ all ↔ net.SolvedBy s ∧ net.Offers s) ∧
      ∀ (kind : PropagatorKind) (seed : UInt64) (solver : Solver),
        (ofNetwork net ⟨kind, .inputOrder, .inDomainOrder, seed⟩).RunsTo solver →
        ∀ detail : Option Level,
          (∀ limit : Option Nat, ∃ result run,
            solver.enumerate unending detail limit = .ok (result, run) ∧
            run.journal.solutions = result.solutions ∧
            result.solutions = limit.elim all all.take) ∧
          ∃ verdict run, solver.satisfy unending detail = .ok (verdict, run) ∧
            ((∃ s, net.Least s ∧ verdict = .satisfiable s) ∨
              (¬∃ s, net.SolvedBy s ∧ net.Offers s) ∧ verdict = .unsatisfiable) := by
  have hwf := hnet.wellFormed
  have hsolved {kind : PropagatorKind} {seed : UInt64} {g g' : Progress} {steps : List Step}
      (h : Searches ⟨kind, .inputOrder, .inDomainOrder, seed⟩ net g steps g') :=
    And.intro (h.pairwise_precedes rfl rfl hwf hfree) fun s => h.mem_solutionsOf_iff (s := s) hwf hfree
  obtain ⟨steps, g', hsearches, -⟩ :=
    (rests_ofNetwork net ⟨.check, .inputOrder, .inDomainOrder, 0⟩).search_eq hwf none
  obtain ⟨hpairwise, hmem⟩ := hsolved hsearches
  refine ⟨solutionsOf steps, hpairwise, hmem, fun kind seed solver hsolver detail => ?_⟩
  obtain ⟨steps', g'', hsearches', hsearch⟩ := (hsolver.rests hwf).search_eq hwf detail
  -- The order leaves no choice between two sequences of all solutions.
  have hsame : solutionsOf steps' = solutionsOf steps := by
    obtain ⟨hpairwise', hmem'⟩ := hsolved hsearches'
    exact hpairwise'.eq_of_mem_iff hpairwise fun s => (hmem' s).trans (hmem s).symm
  constructor
  · intro limit
    by_cases hlimit : limit = some 0
    · subst hlimit
      exact ⟨_, _, if_pos rfl, rfl, rfl⟩
    · refine ⟨_, _, enumerate_eq_ok hlimit (hsearch unending limit), rfl, ?_⟩
      rw [← hsame]
      exact hsearches'.reported_of_neverStops hunending hlimit
  · obtain ⟨run, hverdict, -⟩ :=
      hsearches'.satisfy_of_neverStops hunending (hsearch unending (some 1))
    refine ⟨_, run, hverdict, ?_⟩
    rw [hsame]
    cases hall : solutionsOf steps with
    | nil =>
      refine .inr ⟨fun hs => ?_, rfl⟩
      obtain ⟨s, hs⟩ := hs
      have hs := (hmem s).mpr hs
      rw [hall] at hs
      cases hs
    | cons s rest =>
      rw [hall] at hpairwise hmem
      exact .inl ⟨s, Network.least_of_pairwise hpairwise hmem, rfl⟩

theorem Solver.enumerate_lexicographic_orderedPair :
    let net := Network.orderedPair
    let first (kind : PropagatorKind) := ofNetwork net ⟨kind, .inputOrder, .inDomainOrder, 7⟩
    net.Reachable ∧ net.Free ∧ Termination.NeverStops Condition.never ∧
      ∃ all : List Solution, all.Pairwise net.Precedes ∧
        (∃ result run,
          (first .forward).enumerate Condition.never none (some 2) = .ok (result, run) ∧
          run.journal.solutions = result.solutions ∧ result.solutions = all.take 2) ∧
        ∃ verdict run, (first .arc).satisfy Condition.never none = .ok (verdict, run) ∧
          ((∃ s, net.Least s ∧ verdict = .satisfiable s) ∨
            (¬∃ s, net.SolvedBy s ∧ net.Offers s) ∧ verdict = .unsatisfiable) := by
  intro net first
  have hnet : net.Reachable := Network.reachable_orderedPair
  have hfree : net.Free := Network.free_orderedPair
  obtain ⟨all, hpairwise, -, hruns⟩ :=
    enumerate_lexicographic hnet hfree Condition.neverStops_never
  have hforward := (hruns .forward 7 (first .forward) .refl none).1 (some 2)
  have harc := (hruns .arc 7 (first .arc) .refl none).2
  exact ⟨hnet, hfree, Condition.neverStops_never, all, hpairwise, hforward, harc⟩

end FiniteDomain
