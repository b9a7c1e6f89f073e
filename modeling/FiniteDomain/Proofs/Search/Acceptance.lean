import FiniteDomain.Proofs.Search.Sequence
import FiniteDomain.Proofs.Search.Solutions
/-!
# Solutions that extend an assignment

A search may start with variables that are assigned already. What it reports extends them, and
satisfies every constraint that leaves something to assign. A constraint that was assigned in full
before the search is looked at by no decision, so that a violation of it goes unnoticed.
-/
namespace FiniteDomain

namespace Network

/-- The solution agrees with what is assigned, and satisfies the constraints with a variable that
is not. -/
structure ExtendedBy (net : Network) (s : Solution) : Prop where
  size_eq : s.size = net.numVariables
  agrees : ∀ {x a}, net.assigned x = some a → s.get? x = some a
  satisfied : ∀ {id c}, net.constraints.get? id = some c → net.pending c ≠ [] →
    c.SatisfiedBy s.get?

/-- What consistent decisions keep up below a network with any variables assigned. -/
structure Guards (first : Network) (kind : PropagatorKind) (net : Network) : Prop where
  wellFormed : net.WellFormed
  size_eq : net.numVariables = first.numVariables
  constraints_eq : net.constraints = first.constraints
  agrees : ∀ {x a}, first.assigned x = some a → net.assigned x = some a
  intact : ∀ {id c}, first.constraints.get? id = some c → first.pending c ≠ [] →
    ¬Check.Violated net c
  tried : kind = .forward → ∀ id c x a, net.constraints.get? id = some c → net.pending c = [x] →
    net.Has x a → c.SatisfiedBy (net.trial x a)

end Network

variable {τ : Type} [Termination τ] {options : Options} {goal : Goal} {depth : Nat}
  {first net : Network} {g g' : Progress} {steps : List Step} {x : VariableId} {a : Int}
  {name : String} {outcome : Outcome} {kind : PropagatorKind} {s : Solution} {c : Constraint}
  {id : ConstraintId} {p : Propagator} {j : Journal} {solver : Solver} {detail : Option Level}
  {condition : τ} {wanted : Option Nat}

namespace Network

theorem ExtendedBy.isSolution_iff (h : net.ExtendedBy s) :
    net.isSolution s = .ok true ↔ net.Intact := by
  have hassigned {c : Constraint} (hnil : net.pending c = []) :
      c.SatisfiedBy s.get? ↔ c.SatisfiedBy net.assigned := by
    apply Constraint.satisfiedBy_congr
    intro x hx
    obtain ⟨t, ht⟩ := pending_eq_nil_iff.mp hnil
    obtain ⟨a, ha⟩ := exists_of_forall₂ ht hx
    rw [ha, h.agrees ha]
  rw [isSolution_eq_ok_true]
  constructor
  · rintro hsolved id c hc ⟨hnil, hnot⟩
    exact hnot ((hassigned hnil).mp (hsolved.satisfied hc))
  · intro hintact
    refine ⟨h.size_eq, fun {id c} hc => ?_⟩
    by_cases hnil : net.pending c = []
    · by_contra hnot
      exact hintact id c hc ⟨hnil, mt (hassigned hnil).mpr hnot⟩
    · exact h.satisfied hc hnil

theorem guards_root (h : p.Behaves none net j outcome) (hwf : net.WellFormed)
    (hstatus : outcome.status = .consistent) :
    net.Guards p.kind (net.without outcome.removed) where
  wellFormed := hwf.without _
  size_eq := size_vars_without _ _
  constraints_eq := rfl
  agrees hx := by rw [assigned_without, hx]
  intact _ hopen hviolated := hopen (pending_without ▸ hviolated.1)
  tried hkind id c x a hc hpending ha := by
    have hsettles := h.settles hstatus
    rw [hkind] at hsettles
    rw [pending_without] at hpending
    rw [trial_without]
    exact hsettles c x a ⟨⟨id, hc⟩, fun y hy => nomatch hy⟩ hpending ha

theorem Guards.extendedBy (h : first.Guards kind net) (hnone : net.unassigned = [])
    (hs : Search.currentSolution net = .ok s) : first.ExtendedBy s := by
  obtain ⟨t, ht, hsize, hget⟩ := currentSolution_eq_ok hnone
  obtain rfl : t = s := Except.ok.inj (ht.symm.trans hs)
  refine ⟨hsize.trans h.size_eq, fun hx => (hget _).trans (h.agrees hx), fun {id c} hc hopen => ?_⟩
  have hfits := h.wellFormed.fits (h.constraints_eq ▸ hc)
  have hcomplete : net.pending c = [] :=
    pending_eq_nil_iff.mpr (exists_forall₂ fun x hx => exists_assigned hnone (hfits.known x hx))
  rw [Constraint.satisfiedBy_congr fun x _ => hget x]
  by_contra hnot
  exact h.intact hc hopen ⟨hcomplete, hnot⟩

end Network

theorem Propagator.Behaves.not_violated (h : p.Behaves (some x) (net.assigning x a) j outcome)
    (hwf : net.WellFormed) (hstatus : outcome.status = .consistent) (hx : net.assigned x = none)
    (ha : net.Has x a) (hc : net.constraints.get? id = some c) (hmem : x ∈ c.scope)
    (htried : p.kind = .forward → ∀ a, net.pending c = [x] → net.Has x a →
      c.SatisfiedBy (net.trial x a)) : ¬Check.Violated (net.assigning x a) c := by
  have hsettles := h.settles hstatus
  cases hkind : p.kind with
  | check =>
    rw [hkind] at hsettles
    exact hsettles x id c rfl hc hmem
  | forward => exact Forward.not_violated_decision hwf (htried hkind) hc hx ha hmem
  | arc =>
    have hassigned : (net.assigning x a).assigned x = some a := by
      rw [Network.assigned_assigning ha.knows, if_pos rfl]
    exact h.not_violated_of_arc hkind hstatus hassigned (Network.has_assigning.mpr ha) hc hmem

theorem Decides.guards (h : Decides net g x a name outcome)
    (hnet : first.Guards g.propagator.kind net) (hstatus : outcome.status = .consistent) :
    first.Guards (g.decided net name x a outcome).propagator.kind (net.deciding x a outcome) where
  wellFormed := Network.wellFormed_deciding hnet.wellFormed
  size_eq := by
    rw [Network.deciding, Network.numVariables, Network.size_vars_without,
      Network.size_vars_assigning]
    exact hnet.size_eq
  constraints_eq := hnet.constraints_eq
  agrees {y b} hy := by
    have hyx : y ≠ x := by
      rintro rfl
      have hfree := h.free
      rw [hnet.agrees hy] at hfree
      cases hfree
    rw [Network.deciding, Network.assigned_without, Network.assigned_assigning h.current.knows,
      if_neg hyx, hnet.agrees hy]
  intact {id c} hc hopen := by
    have hc' : net.constraints.get? id = some c := hnet.constraints_eq ▸ hc
    refine Check.not_violated_decision h.current.knows (hnet.intact hc hopen) fun hmem => ?_
    exact h.behaves.not_violated hnet.wellFormed hstatus h.free h.current hc' hmem
      fun hkind b => hnet.tried hkind id c x b hc'
  tried hkind id c y b hc hpending hb := by
    rw [h.kind_eq] at hkind
    have hsettles := h.behaves.settles hstatus
    rw [hkind] at hsettles
    exact Forward.satisfiedBy_trial_decision h.current (hnet.tried hkind) hsettles hc hpending hb

/-- Below any network, an exploration finds only solutions that extend the first one. -/
theorem Explores.extendedBy (h : Explores options goal depth net g steps g')
    (hnet : first.Guards g.propagator.kind net) (hs : s ∈ solutionsOf steps) :
    first.ExtendedBy s := by
  induction h with
  | @leaf depth net g t hselect ht =>
    rw [List.mem_singleton.mp hs]
    exact hnet.extendedBy (VariableSelection.select_eq_none_iff.mp hselect) ht
  | node _ _ _ _ ih => exact ih hnet hs
  | usedUp => cases hs
  | deadEnd hdecides _ _ ih => exact ih (hdecides.kind_eq ▸ hnet) hs
  | @descend x a rest depth net g g₁ g' name outcome below steps hdecides hstatus hbelow _
      ihBelow ihRest =>
    have hkind : g₁.propagator.kind = g.propagator.kind := hbelow.kind_eq.trans hdecides.kind_eq
    change s ∈ solutionsOf (below ++ steps) at hs
    rw [solutionsOf_append, List.mem_append] at hs
    rcases hs with hs | hs
    · exact ihBelow (hdecides.guards hnet hstatus) hs
    · exact ihRest (hkind ▸ hnet) hs

theorem Searches.extendedBy (h : Searches options net g steps g') (hwf : net.WellFormed)
    (hs : s ∈ solutionsOf steps) : net.ExtendedBy s := by
  cases h with
  | failed => cases hs
  | @explored outcome steps g' hbehaves hstatus hexplored =>
    have hguards := Network.guards_root hbehaves hwf hstatus
    exact hexplored.extendedBy (hbehaves.kind_eq.symm ▸ hguards) hs

theorem Searches.extendedBy_of_reported
    (h : Searches options net (solver.progress detail) steps g') (hwf : net.WellFormed)
    (hs : s ∈ (solver.played detail (play steps condition wanted)).journal.solutions) :
    net.ExtendedBy s := by
  rw [h.solutions_played] at hs
  exact h.extendedBy hwf ((isPrefix_solutionsOf (isPrefix_made steps condition wanted)).subset hs)

/-- Whatever is assigned beforehand, what is reported extends it, and is accepted exactly if no
constraint was assigned in full and violated. -/
theorem Solver.reported_accepted_iff (hnet : net.Reachable)
    (hsolver : (ofNetwork net options).RunsTo solver) (condition : τ) (detail : Option Level)
    (limit : Option Nat) :
    (∃ result run, solver.enumerate condition detail limit = .ok (result, run) ∧
      run.journal.solutions = result.solutions ∧ ∀ s ∈ run.journal.solutions,
        net.ExtendedBy s ∧ (net.isSolution s = .ok true ↔ net.Intact)) ∧
    ∃ verdict run, solver.satisfy condition detail = .ok (verdict, run) ∧
      ∀ s, verdict = .satisfiable s →
        net.ExtendedBy s ∧ (net.isSolution s = .ok true ↔ net.Intact) := by
  have hwf := hnet.wellFormed
  obtain ⟨steps, g', hsearches, hsearch⟩ := (hsolver.rests hwf).search_eq hwf detail
  constructor
  · by_cases hlimit : limit = some 0
    · exact ⟨_, _, if_pos hlimit, rfl, fun s hs => nomatch hs⟩
    · refine ⟨_, _, enumerate_eq_ok hlimit (hsearch condition limit), rfl, fun s hs => ?_⟩
      have hextended := hsearches.extendedBy_of_reported hwf hs
      exact ⟨hextended, hextended.isSolution_iff⟩
  · obtain ⟨verdict, hverdict, hsat, -⟩ := satisfy_eq_ok (hsearch condition (some 1))
    refine ⟨verdict, _, hverdict, fun s hs => ?_⟩
    have hextended := hsearches.extendedBy_of_reported hwf (hsat s hs)
    exact ⟨hextended, hextended.isSolution_iff⟩

/-- After a run that was stopped, on a pair that violates its constraint before the search. -/
theorem Solver.reported_accepted_iff_clashingPair :
    let net := Network.clashingPair
    let first := ofNetwork net ⟨.arc, .smallestDomain, .random, 7⟩
    net.Reachable ∧ ∃ verdict run,
      first.satisfy (Condition.decisions 0) none = .ok (verdict, run) ∧ first.RunsTo run.solver ∧
      (∃ result run', run.solver.enumerate Condition.never none (some 2) = .ok (result, run') ∧
        run'.journal.solutions = result.solutions ∧ ∀ s ∈ run'.journal.solutions,
          net.ExtendedBy s ∧ (net.isSolution s = .ok true ↔ net.Intact)) ∧
      ∃ verdict' run', run.solver.satisfy Condition.never none = .ok (verdict', run') ∧
        ∀ s, verdict' = .satisfiable s →
          net.ExtendedBy s ∧ (net.isSolution s = .ok true ↔ net.Intact) := by
  intro net first
  have hnet : net.Reachable := Network.reachable_clashingPair
  have hfirst : first.RunsTo first := .refl
  obtain ⟨-, verdict, run, hrun, -⟩ :=
    reported_accepted_iff hnet hfirst (Condition.decisions 0) none none
  have hsecond : first.RunsTo run.solver := .satisfy hfirst hrun
  exact ⟨hnet, verdict, run, hrun, hsecond,
    reported_accepted_iff hnet hsecond Condition.never none (some 2)⟩

/-- With each kind of propagation a solution of the pair is reported that is not accepted. -/
theorem Solver.clashing_solution_reported :
    Network.clashingPair.Reachable ∧ ∀ kind, ∃ s run,
      (ofNetwork .clashingPair { propagator := kind }).satisfy Condition.never none =
        .ok (.satisfiable s, run) ∧ Network.clashingPair.isSolution s = .ok false := by
  refine ⟨Network.reachable_clashingPair, fun kind => ?_⟩
  have hanswer : ((ofNetwork .clashingPair { propagator := kind }).satisfy Condition.never
      none).toOption.any (fun r =>
        match r.1 with
        | .satisfiable s => decide (Network.clashingPair.isSolution s = .ok false)
        | _ => false) = true := by
    cases kind <;> decide +kernel
  obtain ⟨⟨verdict, run⟩, hrun, hverdict⟩ := (Option.any_eq_true _ _).mp hanswer
  cases verdict with
  | satisfiable s =>
    cases hsatisfy : (ofNetwork .clashingPair { propagator := kind }).satisfy Condition.never none with
    | error b =>
      rw [hsatisfy] at hrun
      cases hrun
    | ok r =>
      rw [hsatisfy] at hrun
      cases hrun
      exact ⟨s, run, rfl, of_decide_eq_true hverdict⟩
  | unsatisfiable => cases hverdict
  | unknown => cases hverdict

end FiniteDomain
