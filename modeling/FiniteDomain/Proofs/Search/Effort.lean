import FiniteDomain.Proofs.Propagation.Strength
import FiniteDomain.Proofs.Search.Lexicographic
import FiniteDomain.Proofs.Search.Trail
/-!
# The effort of stronger propagation

With variables in input order and values in domain order, a search with weaker propagation makes
every decision that one with stronger propagation makes, in the same order, and others in between.
Both find the same solutions, so that this holds up to any number of them.
-/
namespace FiniteDomain

/-- Variables and values are tried in their given order. -/
structure Options.InOrder (options : Options) : Prop where
  selection : options.variableSelection = .inputOrder
  order : options.valueSelection = .inDomainOrder

/-- The second goal has all that the first one has, in the same order. -/
inductive Goal.Within : Goal → Goal → Prop
  | node : Within node node
  | values (x : VariableId) {as bs : List Int} : as.Sublist bs → Within (values x as) (values x bs)

/-- Related networks have the same variables left to assign and the values of the first among those
of the second. Where the propagation of the first goes on, that of the second does, and leaves
related networks. -/
structure Network.Retraces (first second : Network) (kind weaker : PropagatorKind)
    (R : Network → Network → Prop) : Prop where
  within : ∀ {net weak}, R net weak → net.Within weak
  root : ∀ {p p' : Propagator} {j j' outcome outcome'}, p.kind = kind → p'.kind = weaker →
    p.Behaves none first j outcome → p'.Behaves none second j' outcome' →
    outcome.status = .consistent →
    outcome'.status = .consistent ∧
      R (first.without outcome.removed) (second.without outcome'.removed)
  decision : ∀ {net weak} {g g' : Progress} {x a name name' outcome outcome'},
    g.propagator.kind = kind → g'.propagator.kind = weaker → R net weak →
    Decides net g x a name outcome → Decides weak g' x a name' outcome' →
    outcome.status = .consistent →
    outcome'.status = .consistent ∧ R (net.deciding x a outcome) (weak.deciding x a outcome')

variable {τ : Type} [Termination τ] {unending : τ} {options options' : Options}
  {goal goal' : Goal} {depth depth' : Nat} {first second net weak : Network}
  {g g₁ g' g₁' : Progress} {steps steps' : List Step} {kind weaker : PropagatorKind}
  {R : Network → Network → Prop} {s s' : Solution} {detail detail' : Option Level}
  {solver solver' : Solver}

theorem Network.Within.unassigned_eq (h : net.Within weak) : net.unassigned = weak.unassigned := by
  rw [unassigned_eq_filter, unassigned_eq_filter, Store.keys_congr h.size_eq, h.assigned_eq]

theorem Network.Within.select_eq (h : net.Within weak) :
    VariableSelection.inputOrder.select net = VariableSelection.inputOrder.select weak :=
  congrArg List.head? h.unassigned_eq

theorem Network.Within.solution_eq (h : net.Within weak) (hnone : net.unassigned = [])
    (hs : Search.currentSolution net = .ok s) (hs' : Search.currentSolution weak = .ok s') :
    s = s' := by
  obtain ⟨t, ht, -, hget⟩ := currentSolution_eq_ok hnone
  obtain ⟨t', ht', -, hget'⟩ := currentSolution_eq_ok (h.unassigned_eq ▸ hnone)
  obtain rfl : t = s := Except.ok.inj (ht.symm.trans hs)
  obtain rfl : t' = s' := Except.ok.inj (ht'.symm.trans hs')
  apply Store.ext_get?
  intro x
  rw [hget, hget', h.assigned_eq]

/-- An exploration with weaker propagation makes all decisions of one with stronger propagation. -/
theorem Explores.trail_sublist (hretraces : first.Retraces second kind weaker R)
    (horder : options.InOrder) (horder' : options'.InOrder)
    (h : Explores options goal depth net g steps g₁)
    (h' : Explores options' goal' depth' weak g' steps' g₁') (hR : R net weak)
    (hgoal : goal.Within goal') (hkind : g.propagator.kind = kind)
    (hweaker : g'.propagator.kind = weaker) : (trail steps).Sublist (trail steps') := by
  -- The induction follows the weaker propagation, which goes wherever the stronger one goes.
  induction h' generalizing goal depth net g steps g₁ with
  | @leaf depth' weak g' s' hselect' hs' =>
    cases hgoal
    rw [horder'.selection, ← (hretraces.within hR).select_eq] at hselect'
    cases h with
    | leaf hselect hs =>
      have hnone := VariableSelection.select_eq_none_iff.mp hselect'
      rw [(hretraces.within hR).solution_eq hnone hs hs']
      exact .refl _
    | node hselect =>
      rw [horder.selection, hselect'] at hselect
      cases hselect
  | @node depth' weak g' g₁' x' w values' generator' steps' hselect' hw hvalues' _ ih =>
    cases hgoal
    rw [horder'.selection, ← (hretraces.within hR).select_eq] at hselect'
    cases h with
    | leaf hselect =>
      rw [horder.selection, hselect'] at hselect
      cases hselect
    | @node depth net g g₁ x v values generator steps hselect hv hvalues hbelow =>
      rw [horder.selection, hselect'] at hselect
      obtain rfl := Option.some.inj hselect
      rw [horder.order] at hvalues
      rw [horder'.order] at hvalues'
      obtain rfl : v.currentDomain = values := (Prod.mk.inj hvalues).1
      obtain rfl : w.currentDomain = values' := (Prod.mk.inj hvalues').1
      exact ih hbelow hR (.values _ ((hretraces.within hR).sublist hv hw)) hkind hweaker
  | usedUp =>
    cases hgoal with | values _ hsub
    obtain rfl := List.sublist_nil.mp hsub
    cases h
    exact .refl _
  | @deadEnd x b bs depth' weak g' g₁' name' outcome' steps' hdecides' hstatus' _ ih =>
    have hweaker' := hdecides'.kind_eq.trans hweaker
    cases hgoal with | values _ hsub
    rcases List.sublist_cons_iff.mp hsub with hskip | ⟨as, rfl, htail⟩
    · exact (ih h hR (.values x hskip) hkind hweaker').cons _
    · cases h with
      | deadEnd hdecides _ hleft =>
        exact (ih hleft hR (.values x htail) (hdecides.kind_eq.trans hkind) hweaker').cons_cons _
      | descend hdecides hstatus =>
        exact absurd (hretraces.decision hkind hweaker hR hdecides hdecides' hstatus).1 hstatus'
  | @descend x b bs depth' weak g' g₂' g₁' name' outcome' below' steps' hdecides' hstatus' hbelow' _
      ihBelow ihRest =>
    have hweaker' : g₂'.propagator.kind = weaker :=
      hbelow'.kind_eq.trans (hdecides'.kind_eq.trans hweaker)
    rw [trail_decision, trail_append]
    cases hgoal with | values _ hsub
    rcases List.sublist_cons_iff.mp hsub with hskip | ⟨as, rfl, htail⟩
    · have hrest := ihRest h hR (.values x hskip) hkind hweaker'
      exact (List.sublist_append_of_sublist_right hrest).cons _
    · cases h with
      | deadEnd hdecides _ hleft =>
        -- Only the weaker propagation goes on below the decision.
        have hrest := ihRest hleft hR (.values x htail) (hdecides.kind_eq.trans hkind) hweaker'
        exact (List.sublist_append_of_sublist_right hrest).cons_cons _
      | @descend _ _ _ _ _ _ g₂ _ name outcome below steps hdecides hstatus hbelow hleft =>
        obtain ⟨-, hR'⟩ := hretraces.decision hkind hweaker hR hdecides hdecides' hstatus
        have hkind' := hdecides.kind_eq.trans hkind
        have hdeep := ihBelow hbelow hR' .node hkind' (hdecides'.kind_eq.trans hweaker)
        have hrest := ihRest hleft hR (.values x htail) (hbelow.kind_eq.trans hkind') hweaker'
        rw [trail_decision, trail_append]
        exact (hdeep.append hrest).cons_cons _

theorem Searches.trail_sublist (hretraces : first.Retraces second kind weaker R)
    (horder : options.InOrder) (horder' : options'.InOrder)
    (h : Searches options first g steps g₁) (h' : Searches options' second g' steps' g₁')
    (hkind : g.propagator.kind = kind) (hweaker : g'.propagator.kind = weaker) :
    (trail steps).Sublist (trail steps') := by
  cases h with
  | failed => exact List.nil_sublist _
  | @explored outcome below g₁ hbehaves hstatus hexplored =>
    cases h' with
    | failed hbehaves' hstatus' =>
      exact absurd (hretraces.root hkind hweaker hbehaves hbehaves' hstatus).1 hstatus'
    | @explored outcome' below' g₁' hbehaves' _ hexplored' =>
      obtain ⟨-, hR⟩ := hretraces.root hkind hweaker hbehaves hbehaves' hstatus
      rw [trail_root, trail_root]
      have hkind₁ := (Progress.leads_propagated hbehaves).kind_eq.trans hkind
      have hweaker₁ := (Progress.leads_propagated hbehaves').kind_eq.trans hweaker
      exact hexplored.trail_sublist hretraces horder horder' hexplored' hR .node hkind₁ hweaker₁

theorem Searches.decisions_le (h : Searches options first (solver.progress detail) steps g₁)
    (h' : Searches options' second (solver'.progress detail') steps' g₁')
    (hsub : (trail steps).Sublist (trail steps')) (hsame : solutionsOf steps = solutionsOf steps')
    (hcounters : solver.counters.decisions = solver'.counters.decisions)
    (hunending : Termination.NeverStops unending) {limit : Option Nat} (hlimit : limit ≠ some 0) :
    (solver.played detail (play steps unending limit)).solver.counters.decisions ≤
      (solver'.played detail' (play steps' unending limit)).solver.counters.decisions := by
  rw [h.decisions_played, h'.decisions_played, hcounters]
  apply Nat.add_le_add_left
  refine List.Sublist.countP_le ?_
  match limit with
  | none =>
    rw [play_of_neverStops hunending, play_of_neverStops hunending]
    exact hsub
  | some 0 => exact absurd rfl hlimit
  | some (limit + 1) =>
    rw [trail_play hunending, trail_play hunending]
    rw [solutionsOf_eq_filterMap, solutionsOf_eq_filterMap] at hsame
    exact Mark.upTo_sublist hsub hsame (limit + 1)

theorem Searches.solutionsOf_eq_of_vars_eq (horder : options.InOrder) (horder' : options'.InOrder)
    (h : Searches options first g steps g₁) (h' : Searches options' second g' steps' g₁')
    (hwf : first.WellFormed) (hwf' : second.WellFormed) (hfree : first.Free)
    (hvars : first.vars = second.vars)
    (hsame : ∀ s, first.SolvedBy s ∧ first.Offers s ↔ second.SolvedBy s ∧ second.Offers s) :
    solutionsOf steps = solutionsOf steps' := by
  have hfree' : second.Free := by
    intro x
    rw [Network.assigned, ← hvars]
    exact hfree x
  have hprecedes : ∀ s s', second.Precedes s s' → first.Precedes s s' := by
    intro s s' hs
    simpa only [Network.Precedes, Network.position, hvars] using hs
  refine (h.pairwise_precedes horder.selection horder.order hwf hfree).eq_of_mem_iff
    ((h'.pairwise_precedes horder'.selection horder'.order hwf' hfree').imp (hprecedes _ _))
    fun s => ?_
  rw [h.mem_solutionsOf_iff hwf hfree, h'.mem_solutionsOf_iff hwf' hfree', hsame]

theorem Searches.solutionsOf_eq (horder : options.InOrder) (horder' : options'.InOrder)
    (h : Searches options net g steps g₁) (h' : Searches options' net g' steps' g₁')
    (hwf : net.WellFormed) (hfree : net.Free) : solutionsOf steps = solutionsOf steps' :=
  h.solutionsOf_eq_of_vars_eq horder horder' h' hwf hwf hfree rfl fun _ => Iff.rfl

/-- Below a network without assigned variables, no decision of the stronger kind goes wrong for a
weaker one. -/
theorem Network.retraces_of_dominates (hwf : first.WellFormed) (hfree : first.Free)
    (hkinds : kind.Dominates weaker) :
    first.Retraces first kind weaker fun net weak =>
      net.Within weak ∧ net.constraints = weak.constraints ∧ net.Explorable kind where
  within h := h.1
  root {p p' j j' outcome outcome'} hkind hweaker h h' hstatus := by
    obtain ⟨hstatus', hwithin⟩ := h.dominates h' (hkind ▸ hweaker ▸ hkinds) (.refl first) rfl hstatus
      fun x id c hx => nomatch hx
    refine ⟨hstatus', hwithin, rfl, hwf.without _, hkind ▸ h.keeps_root hwf hfree hstatus, ?_⟩
    intro x a hx
    rw [assigned_without, hfree] at hx
    cases hx
  decision {net weak g g' x a name name' outcome outcome'} hkind hweaker hR h h' hstatus := by
    obtain ⟨hwithin, hconstraints, hnet⟩ := hR
    rw [← hkind] at hnet
    have hnet' := h.explorable hnet hstatus
    obtain ⟨hstatus', hwithin'⟩ := h.behaves.dominates h'.behaves (hkind ▸ hweaker ▸ hkinds)
      (hwithin.assigning h.current.knows a) hconstraints hstatus fun y id c _ hc _ hviolated =>
        hnet'.keeps.intact hnet'.wellFormed id c hc (Check.violated_without.mpr hviolated)
    exact ⟨hstatus', hwithin', hconstraints, hkind ▸ h.kind_eq ▸ hnet'⟩

/-- Runs of fresh solvers that differ in their propagators make fewer decisions, or as many, with
arc consistency than with forward checking, and with forward checking than with the check. -/
theorem Solver.decisions_antitone (hnet : net.Reachable) (hfree : net.Free)
    (hunending : Termination.NeverStops unending) (seed : PropagatorKind → UInt64)
    (detail : PropagatorKind → Option Level) :
    let fresh (kind : PropagatorKind) :=
      ofNetwork net ⟨kind, .inputOrder, .inDomainOrder, seed kind⟩
    let ordered (run : PropagatorKind → Run τ) :=
      (run .arc).solver.counters.decisions ≤ (run .forward).solver.counters.decisions ∧
        (run .forward).solver.counters.decisions ≤ (run .check).solver.counters.decisions
    (∃ (verdict : PropagatorKind → Verdict) (run : PropagatorKind → Run τ),
      (∀ kind, (fresh kind).satisfy unending (detail kind) = .ok (verdict kind, run kind)) ∧
        ordered run) ∧
    ∀ limit : Option Nat, ∃ (result : PropagatorKind → Enumeration) (run : PropagatorKind → Run τ),
      (∀ kind, (fresh kind).enumerate unending (detail kind) limit =
        .ok (result kind, run kind)) ∧ ordered run := by
  intro fresh ordered
  have hwf := hnet.wellFormed
  choose steps g hsearches hsearch using fun kind =>
    (rests_ofNetwork net ⟨kind, .inputOrder, .inDomainOrder, seed kind⟩).search_eq hwf (detail kind)
  have hle {kind weaker : PropagatorKind} (hkinds : kind.Dominates weaker) {limit : Option Nat}
      (hlimit : limit ≠ some 0) :
      ((fresh kind).played (detail kind) (play (steps kind) unending limit)).solver.counters.decisions ≤
        ((fresh weaker).played (detail weaker)
          (play (steps weaker) unending limit)).solver.counters.decisions := by
    have hkind (kind : PropagatorKind) :
        ((fresh kind).progress (detail kind)).propagator.kind = kind :=
      (rests_ofNetwork net ⟨kind, .inputOrder, .inDomainOrder, seed kind⟩).kind_eq
    refine (hsearches kind).decisions_le (hsearches weaker) ?_ ?_ rfl hunending hlimit
    · exact (hsearches kind).trail_sublist (Network.retraces_of_dominates hwf hfree hkinds) ⟨rfl, rfl⟩
        ⟨rfl, rfl⟩ (hsearches weaker) (hkind kind) (hkind weaker)
    · exact (hsearches kind).solutionsOf_eq ⟨rfl, rfl⟩ ⟨rfl, rfl⟩ (hsearches weaker) hwf hfree
  have hordered {limit : Option Nat} (hlimit : limit ≠ some 0) :
      ordered fun kind => (fresh kind).played (detail kind) (play (steps kind) unending limit) :=
    ⟨hle .forward hlimit, hle (.check .forward) hlimit⟩
  constructor
  · choose verdict hverdict _ using fun kind => satisfy_eq_ok (hsearch kind unending (some 1))
    exact ⟨verdict, _, hverdict, hordered fun hone => nomatch hone⟩
  · intro limit
    by_cases hlimit : limit = some 0
    · exact ⟨_, fun kind => ⟨fresh kind, unending, .empty (detail kind), .interrupted⟩,
        fun kind => if_pos hlimit, Nat.le_refl _, Nat.le_refl _⟩
    · exact ⟨_, _, fun kind => enumerate_eq_ok hlimit (hsearch kind unending limit), hordered hlimit⟩

theorem Solver.decisions_antitone_orderedPair :
    let net := Network.orderedPair
    let fresh (kind : PropagatorKind) := ofNetwork net ⟨kind, .inputOrder, .inDomainOrder, 7⟩
    net.Reachable ∧ net.Free ∧ Termination.NeverStops Condition.never ∧
      ∃ (result : PropagatorKind → Enumeration) (run : PropagatorKind → Run Condition),
        (∀ kind, (fresh kind).enumerate Condition.never none (some 2) = .ok (result kind, run kind)) ∧
        (run .arc).solver.counters.decisions ≤ (run .forward).solver.counters.decisions ∧
        (run .forward).solver.counters.decisions ≤ (run .check).solver.counters.decisions := by
  intro net fresh
  have hnet : net.Reachable := Network.reachable_orderedPair
  have hfree : net.Free := Network.free_orderedPair
  obtain ⟨-, hruns⟩ := decisions_antitone hnet hfree Condition.neverStops_never (fun _ => 7) fun _ => none
  exact ⟨hnet, hfree, Condition.neverStops_never, hruns (some 2)⟩

/-- Arc consistency decides each variable once, and the check goes through all pairs. -/
example : PropagatorKind.all.map (fun kind =>
    ((Solver.ofNetwork .orderedPair ⟨kind, .inputOrder, .inDomainOrder, 7⟩).enumerate Condition.never
      none none).toOption.map fun r => r.2.solver.counters.decisions) = [some 6, some 3, some 2] := by
  decide +kernel

end FiniteDomain
