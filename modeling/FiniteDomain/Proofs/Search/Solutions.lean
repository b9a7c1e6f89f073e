import FiniteDomain.Proofs.Propagation.Upkeep
import FiniteDomain.Proofs.Search.Report
/-!
# The solutions found below a node

Each decision splits off the completions with its value. So an exploration finds exactly the
completions of the network of its node, and none of them twice.
-/
namespace FiniteDomain

/-- What consistent decisions keep up, from a network without assigned variables on. -/
structure Network.Explorable (net : Network) (kind : PropagatorKind) : Prop where
  wellFormed : net.WellFormed
  keeps : kind.Keeps net
  current : ∀ {x a}, net.assigned x = some a → net.Has x a

/-- The solutions that the goal is about: those with one of the values that are left to try. -/
def Goal.Covers (goal : Goal) (s : Solution) : Prop :=
  match goal with
  | node => True
  | values x as => ∃ a ∈ as, s.get? x = some a

/-- No value is left to try twice. -/
def Goal.Distinct (goal : Goal) : Prop :=
  match goal with
  | node => True
  | values _ as => as.Nodup

variable {options : Options} {goal : Goal} {depth : Nat} {net : Network} {g g' : Progress}
  {steps : List Step} {x : VariableId} {a : Int} {name : String} {outcome : Outcome}
  {kind : PropagatorKind} {s s' : Solution} {rs : List Removal}

theorem Network.completedBy_assigning_iff (hx : net.Knows x) (hfree : net.assigned x = none) :
    (net.assigning x a).CompletedBy s ↔ net.CompletedBy s ∧ s.get? x = some a := by
  have hsize : (net.assigning x a).numVariables = net.numVariables := size_vars_assigning net x a
  constructor
  · intro h
    refine ⟨⟨⟨h.size_eq.trans hsize, h.satisfied⟩, fun hy => has_assigning.mp (h.offers hy), ?_⟩, ?_⟩
    · intro y b hy
      apply h.agrees
      have hyx : y ≠ x := by
        intro h
        subst h
        rw [hfree] at hy
        cases hy
      rw [assigned_assigning hx, if_neg hyx, hy]
    · apply h.agrees
      rw [assigned_assigning hx, if_pos rfl]
  · intro h
    obtain ⟨h, hs⟩ := h
    refine ⟨⟨h.size_eq.trans hsize.symm, h.satisfied⟩, fun hy => has_assigning.mpr (h.offers hy), ?_⟩
    intro y b hy
    rw [assigned_assigning hx] at hy
    by_cases hyx : y = x
    · rw [if_pos hyx] at hy
      rw [hyx, hs, hy]
    · rw [if_neg hyx] at hy
      exact h.agrees hy

theorem Network.CompletedBy.of_without (h : (net.without rs).CompletedBy s) : net.CompletedBy s where
  size_eq := h.size_eq.trans (size_vars_without net rs)
  satisfied := h.satisfied
  offers hx := (has_without.mp (h.offers hx)).1
  agrees hx := h.agrees (by rw [assigned_without, hx])

theorem Decides.completedBy_iff (h : Decides net g x a name outcome) :
    (net.deciding x a outcome).CompletedBy s ↔ net.CompletedBy s ∧ s.get? x = some a := by
  rw [← Network.completedBy_assigning_iff h.current.knows h.free]
  exact ⟨Network.CompletedBy.of_without, h.behaves.completedBy⟩

/-- No completion has a value with which propagation failed. -/
theorem Decides.get?_ne (h : Decides net g x a name outcome) (hstatus : outcome.status ≠ .consistent)
    (hs : net.CompletedBy s) : s.get? x ≠ some a := by
  intro hx
  apply h.behaves.not_completedBy hstatus
  exact (Network.completedBy_assigning_iff h.current.knows h.free).mpr ⟨hs, hx⟩

private theorem Decides.has_of_assigned (h : Decides net g x a name outcome)
    (hnet : net.Explorable g.propagator.kind) (hstatus : outcome.status = .consistent)
    {y : VariableId} {b : Int} (hy : (net.deciding x a outcome).assigned y = some b) :
    (net.deciding x a outcome).Has y b := by
  have hassigned : (net.assigning x a).assigned y = some b := by
    rwa [Network.deciding, Network.assigned_without] at hy
  have hcurrent : (net.assigning x a).Has y b := by
    rw [Network.has_assigning]
    rw [Network.assigned_assigning h.current.knows] at hassigned
    by_cases hyx : y = x
    · rw [if_pos hyx] at hassigned
      cases hassigned
      exact hyx ▸ h.current
    · rw [if_neg hyx] at hassigned
      exact hnet.current hassigned
  have hstays (hnot : ¬g.propagator.kind.Discards (net.assigning x a) (some x) ⟨y, b⟩) :
      (net.deciding x a outcome).Has y b :=
    Network.has_without.mpr ⟨hcurrent, fun hmem => hnot (h.behaves.discards _ hmem)⟩
  cases hkind : g.propagator.kind with
  | check =>
    rw [hkind] at hstays
    exact hstays id
  | forward =>
    rw [hkind] at hstays
    exact hstays (Network.not_unfit_of_assigned hassigned)
  | arc =>
    have hkeeps := h.behaves.keeps_decision hnet.wellFormed hnet.keeps h.free h.current hstatus
    rw [hkind] at hkeeps
    exact (hkeeps.2 y b b hy).mpr rfl

theorem Decides.explorable (h : Decides net g x a name outcome)
    (hnet : net.Explorable g.propagator.kind) (hstatus : outcome.status = .consistent) :
    (net.deciding x a outcome).Explorable (g.decided net name x a outcome).propagator.kind := by
  rw [h.kind_eq]
  exact ⟨Network.wellFormed_deciding hnet.wellFormed,
    h.behaves.keeps_decision hnet.wellFormed hnet.keeps h.free h.current hstatus,
    h.has_of_assigned hnet hstatus⟩

theorem Network.Explorable.completedBy_iff_eq (h : net.Explorable kind) (hnone : net.unassigned = [])
    (hs : Search.currentSolution net = .ok s) : net.CompletedBy s' ↔ s' = s := by
  obtain ⟨t, ht, hsize, hget⟩ := currentSolution_eq_ok hnone
  obtain rfl : t = s := Except.ok.inj (ht.symm.trans hs)
  have hall : ∀ x, net.Knows x → ∃ a, net.assigned x = some a := fun _ => exists_assigned hnone
  constructor
  · intro hs'
    apply Store.ext_get?
    intro x
    rw [hget]
    cases hx : s'.get? x with
    | some a =>
      obtain ⟨b, hb⟩ := hall x (hs'.knows hx)
      rw [hb, hs'.eq_assigned hb hx]
    | none =>
      cases hb : net.assigned x with
      | none => rfl
      | some b =>
        rw [hs'.agrees hb] at hx
        cases hx
  · intro h
    subst h
    refine ⟨⟨hsize, fun hc => ?_⟩, fun hx => h.current (by rw [← hget, hx]), fun hx => by
      rw [hget, hx]⟩
    exact (Constraint.satisfiedBy_congr fun x _ => hget x).mpr
      (h.keeps.satisfiedBy h.wellFormed hall hc)

theorem Network.CompletedBy.covers (hs : net.CompletedBy s) {v : Variable}
    (hv : net.vars.get? x = some v) {values : List Int} (hperm : values.Perm v.currentDomain) :
    (Goal.values x values).Covers s := by
  obtain ⟨a, ha⟩ := Network.get?_of_knows hs.size_eq ⟨v, hv⟩
  obtain ⟨w, hw, hcontains⟩ := hs.offers ha
  obtain rfl : w = v := Option.some.inj (hw.symm.trans hv)
  exact ⟨a, hperm.mem_iff.mpr (Variable.mem_currentDomain.mpr hcontains), ha⟩

/-- An exploration finds the completions that its goal covers, and nothing else. -/
theorem Explores.mem_solutionsOf_iff (h : Explores options goal depth net g steps g')
    (hnet : net.Explorable g.propagator.kind) :
    s ∈ solutionsOf steps ↔ net.CompletedBy s ∧ goal.Covers s := by
  induction h with
  | @leaf depth net g t hselect ht =>
    rw [hnet.completedBy_iff_eq (VariableSelection.select_eq_none_iff.mp hselect) ht]
    exact List.mem_singleton.trans (and_iff_left trivial).symm
  | @node depth net g g' x v values generator steps hselect hv horder _ ih =>
    have hperm := options.valueSelection.order_perm v.currentDomain g.generator
    rw [horder] at hperm
    rw [ih hnet]
    exact ⟨fun hs => ⟨hs.1, trivial⟩, fun hs => ⟨hs.1, hs.1.covers hv hperm⟩⟩
  | usedUp =>
    constructor
    · intro hs
      cases hs
    · intro h
      obtain ⟨-, a, ha, -⟩ := h
      cases ha
  | @deadEnd x a rest depth net g g' name outcome steps hdecides hstatus _ ih =>
    refine (ih (hdecides.kind_eq ▸ hnet)).trans (and_congr_right fun hs => ?_)
    rw [Goal.Covers, Goal.Covers, List.exists_mem_cons_iff]
    exact (or_iff_right (hdecides.get?_ne hstatus hs)).symm
  | @descend x a rest depth net g g₁ g' name outcome below steps hdecides hstatus hbelow _
      ihBelow ihRest =>
    have hkind : g₁.propagator.kind = g.propagator.kind := hbelow.kind_eq.trans hdecides.kind_eq
    change s ∈ solutionsOf (below ++ steps) ↔ _
    rw [solutionsOf_append, List.mem_append, ihBelow (hdecides.explorable hnet hstatus),
      ihRest (hkind ▸ hnet), hdecides.completedBy_iff, Goal.Covers, Goal.Covers, Goal.Covers,
      List.exists_mem_cons_iff, and_true, and_or_left]

theorem Explores.nodup_solutionsOf (h : Explores options goal depth net g steps g')
    (hnet : net.Explorable g.propagator.kind) (hgoal : goal.Distinct) : (solutionsOf steps).Nodup := by
  induction h with
  | leaf => exact List.nodup_singleton _
  | @node depth net g g' x v values generator steps hselect hv horder _ ih =>
    have hperm := options.valueSelection.order_perm v.currentDomain g.generator
    rw [horder] at hperm
    exact ih hnet (hperm.nodup_iff.mpr (hnet.wellFormed.domains hv).nodup_currentDomain)
  | usedUp => exact List.nodup_nil
  | deadEnd hdecides _ _ ih => exact ih (hdecides.kind_eq ▸ hnet) hgoal.of_cons
  | @descend x a rest depth net g g₁ g' name outcome below steps hdecides hstatus hbelow hleft
      ihBelow ihRest =>
    have hkind : g₁.propagator.kind = g.propagator.kind := hbelow.kind_eq.trans hdecides.kind_eq
    have hnet' := hdecides.explorable hnet hstatus
    obtain ⟨hfresh, hrest⟩ := List.nodup_cons.mp hgoal
    change (solutionsOf (below ++ steps)).Nodup
    rw [solutionsOf_append, List.nodup_append']
    refine ⟨ihBelow hnet' trivial, ihRest (hkind ▸ hnet) hrest, fun s hs hs' => ?_⟩
    -- The solutions below the decision have its value, and the others another one.
    have ha := (hdecides.completedBy_iff.mp ((hbelow.mem_solutionsOf_iff hnet').mp hs).1).2
    obtain ⟨-, b, hb, hsb⟩ := (hleft.mem_solutionsOf_iff (hkind ▸ hnet)).mp hs'
    rw [ha] at hsb
    exact hfresh (Option.some.inj hsb ▸ hb)

theorem Progress.explorable_propagated (h : g.propagator.Behaves none net g.journal outcome)
    (hwf : net.WellFormed) (hfree : net.Free) (hstatus : outcome.status = .consistent) :
    (net.without outcome.removed).Explorable (g.propagated none net outcome).propagator.kind := by
  rw [(leads_propagated h).kind_eq]
  refine ⟨hwf.without outcome.removed, h.keeps_root hwf hfree hstatus, fun hx => ?_⟩
  rw [Network.assigned_without, hfree] at hx
  cases hx

theorem Searches.mem_solutionsOf_iff (h : Searches options net g steps g') (hwf : net.WellFormed)
    (hfree : net.Free) : s ∈ solutionsOf steps ↔ net.SolvedBy s ∧ net.Offers s := by
  rw [← Network.completedBy_iff_of_free hfree]
  cases h with
  | @failed outcome hbehaves hstatus =>
    constructor
    · intro hs
      cases hs
    · intro hs
      exact absurd hs (hbehaves.not_completedBy hstatus)
  | @explored outcome steps g' hbehaves hstatus hexplored =>
    have hnet := Progress.explorable_propagated hbehaves hwf hfree hstatus
    refine (hexplored.mem_solutionsOf_iff hnet).trans ((and_iff_left trivial).trans ?_)
    exact ⟨Network.CompletedBy.of_without, hbehaves.completedBy⟩

theorem Searches.nodup_solutionsOf (h : Searches options net g steps g') (hwf : net.WellFormed)
    (hfree : net.Free) : (solutionsOf steps).Nodup := by
  cases h with
  | failed => exact List.nodup_nil
  | @explored outcome steps g' hbehaves hstatus hexplored =>
    have hnet := Progress.explorable_propagated hbehaves hwf hfree hstatus
    exact hexplored.nodup_solutionsOf hnet trivial

end FiniteDomain
