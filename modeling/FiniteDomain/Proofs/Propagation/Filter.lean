import FiniteDomain.Proofs.Propagation.Record
/-!
# What forward checking leaves

Each variable that an examined constraint leaves alone unassigned keeps the values that satisfy all
such constraints, however many of them filter it one after another. Nothing else changes, and a call
fails only where no value of such a variable is left.
-/
namespace FiniteDomain

namespace Network

/-- Some examined constraint has no other unassigned variable. -/
def Filters (net : Network) (trigger : Option VariableId) (x : VariableId) : Prop :=
  ∃ c, net.Examines trigger c ∧ net.pending c = [x]

/-- A current value that, next to the assigned values, satisfies every examined constraint with no
other unassigned variable. -/
def Fitting (net : Network) (trigger : Option VariableId) (x : VariableId) (a : Int) : Prop :=
  net.Has x a ∧ ∀ c, net.Examines trigger c → net.pending c = [x] → c.SatisfiedBy (net.trial x a)

/-- A filtered variable has values, but none that fits. -/
def Starves (net : Network) (trigger : Option VariableId) (x : VariableId) : Prop :=
  net.Filters trigger x ∧ (∃ a, net.Has x a) ∧ ∀ a, ¬net.Fitting trigger x a

variable {net : Network} {trigger : Option VariableId} {x : VariableId} {a : Int}
  {rs : List Removal}

theorem fitting_iff : net.Fitting trigger x a ↔ net.Has x a ∧ ¬net.Unfit trigger ⟨x, a⟩ := by
  simp [Fitting, Unfit]

theorem Unfit.filters (h : net.Unfit trigger ⟨x, a⟩) : net.Filters trigger x := by
  obtain ⟨c, hexamines, hpending, -⟩ := h
  exact ⟨c, hexamines, hpending⟩

theorem WellFormed.get?_without_of_forall_not_mem (hwf : net.WellFormed)
    (h : ∀ a, (⟨x, a⟩ : Removal) ∉ rs) : (net.without rs).vars.get? x = net.vars.get? x := by
  rw [get?_without]
  cases hv : net.vars.get? x with
  | none => rfl
  | some v =>
    have hnone : (fun a => rs.contains ⟨x, a⟩) = fun _ => false := by
      funext a
      simpa using h a
    rw [Option.map_some, hnone, (hwf.domains hv).without_none]

end Network

namespace Propagator.Behaves

variable {p : Propagator} {net : Network} {trigger : Option VariableId} {j : Journal}
  {outcome : Outcome} {x : VariableId} {a : Int}

theorem unfit_of_mem (h : p.Behaves trigger net j outcome) (hkind : p.kind = .forward) {r : Removal}
    (hr : r ∈ outcome.removed) : net.Unfit trigger r := by
  have hdiscards := h.discards r hr
  rw [hkind] at hdiscards
  exact hdiscards

theorem has_of_fitting (h : p.Behaves trigger net j outcome) (hkind : p.kind = .forward)
    (ha : net.Fitting trigger x a) : (net.without outcome.removed).Has x a := by
  obtain ⟨hcurrent, hfits⟩ := Network.fitting_iff.mp ha
  apply Network.has_without.mpr
  exact ⟨hcurrent, fun hmem => hfits (h.unfit_of_mem hkind hmem)⟩

/-- A consistent answer leaves what fits. -/
theorem has_iff_fitting (h : p.Behaves trigger net j outcome) (hkind : p.kind = .forward)
    (hstatus : outcome.status = .consistent) :
    (net.without outcome.removed).Has x a ↔ net.Fitting trigger x a := by
  constructor
  · intro ha
    have hsettles := h.settles hstatus
    rw [hkind] at hsettles
    exact ⟨(Network.has_without.mp ha).1, fun c hc hpending => hsettles c x a hc hpending ha⟩
  · exact h.has_of_fitting hkind

/-- The variable that a failure names is one that starves. -/
theorem starves_of_emptyDomain (h : p.Behaves trigger net j outcome) (hkind : p.kind = .forward)
    (hstatus : outcome.status = .inconsistent (.emptyDomain x)) : net.Starves trigger x := by
  have hemptied := h.emptied hstatus
  obtain ⟨rs, a, hlast⟩ := hemptied.last
  have hmem : (⟨x, a⟩ : Removal) ∈ outcome.removed := by simp [hlast]
  refine ⟨(h.unfit_of_mem hkind hmem).filters, ⟨a, h.records.current _ hmem⟩, fun b hb => ?_⟩
  exact hemptied.empty b (h.has_of_fitting hkind hb)

theorem not_starves (h : p.Behaves trigger net j outcome) (hkind : p.kind = .forward)
    (hstatus : outcome.status = .consistent) : ¬net.Starves trigger x := by
  intro hstarves
  obtain ⟨-, ⟨a, ha⟩, hnone⟩ := hstarves
  obtain ⟨b, hb⟩ := h.outlived hstatus ha
  rw [h.network_eq] at hb
  exact hnone b ((h.has_iff_fitting hkind hstatus).mp hb)

end Propagator.Behaves

variable {net : Network} {trigger : Option VariableId}

/-- Forward checking leaves each filtered variable the values that fit it, and everything else as it
was. It fails exactly where a variable with values has none that fit. -/
theorem Propagator.forward_filters_exactly (hnet : net.Reachable)
    (hknown : ∀ x, trigger = some x → net.Knows x) (counters : ForwardCounters) (j : Journal) :
    let r := (forward counters).call trigger net j
    ∃ outcome, r.answer = .ok outcome ∧
      (outcome.status = .consistent ∨ ∃ x, outcome.status = .inconsistent (.emptyDomain x)) ∧
      ((∃ x, outcome.status = .inconsistent (.emptyDomain x)) ↔ ∃ x, net.Starves trigger x) ∧
      (∀ x, outcome.status = .inconsistent (.emptyDomain x) → net.Starves trigger x) ∧
      (outcome.status = .consistent → ∀ x,
        (net.Filters trigger x → ∀ a, r.network.Has x a ↔ net.Fitting trigger x a) ∧
        (¬net.Filters trigger x → r.network.vars.get? x = net.vars.get? x)) ∧
      (∀ x a, r.network.Has x a → net.Has x a) ∧
      (∀ x a, net.Has x a → ¬r.network.Has x a →
        net.Filters trigger x ∧ ¬net.Fitting trigger x a) ∧
      ∀ x, (r.network.vars.get? x).map Variable.assignments =
        (net.vars.get? x).map Variable.assignments := by
  intro r
  have hwf := hnet.wellFormed
  obtain ⟨outcome, h⟩ := behaves_forward hwf hknown counters j
  have hkind : (forward counters).kind = .forward := rfl
  have hnetwork : r.network = net.without outcome.removed := h.network_eq
  have hstatus : outcome.status = .consistent ∨
      ∃ x, outcome.status = .inconsistent (.emptyDomain x) := by
    by_cases hconsistent : outcome.status = .consistent
    · exact .inl hconsistent
    · exact .inr (h.exists_emptyDomain (by simp [hkind]) hconsistent)
  have hstarves : ∀ x, outcome.status = .inconsistent (.emptyDomain x) → net.Starves trigger x :=
    fun x hx => h.starves_of_emptyDomain hkind hx
  refine ⟨outcome, h.answer_eq, hstatus, ⟨?_, ?_⟩, hstarves, ?_, ?_, ?_,
    (call_exact hwf h.answer_eq).assignments_eq⟩
  · intro hfails
    obtain ⟨x, hx⟩ := hfails
    exact ⟨x, hstarves x hx⟩
  · intro hlost
    obtain ⟨x, hx⟩ := hlost
    exact hstatus.resolve_left fun hconsistent => h.not_starves hkind hconsistent hx
  · intro hconsistent x
    rw [hnetwork]
    refine ⟨fun _ a => h.has_iff_fitting hkind hconsistent, fun hnot => ?_⟩
    apply hwf.get?_without_of_forall_not_mem
    exact fun a hmem => hnot (h.unfit_of_mem hkind hmem).filters
  · intro x a ha
    rw [hnetwork] at ha
    exact (Network.has_without.mp ha).1
  · intro x a ha hgone
    rw [hnetwork] at hgone
    have hmem : (⟨x, a⟩ : Removal) ∈ outcome.removed := by
      by_contra hnot
      exact hgone (Network.has_without.mpr ⟨ha, hnot⟩)
    have hunfit := h.unfit_of_mem hkind hmem
    exact ⟨hunfit.filters, fun hfits => (Network.fitting_iff.mp hfits).2 hunfit⟩

theorem Propagator.forward_filters_exactly_orderedPair :
    let net := Network.orderedPair.assigning ⟨0⟩ 1
    let trigger : Option VariableId := some ⟨0⟩
    let r := (forward {}).call trigger net (.empty none)
    net.Reachable ∧ (∀ x, trigger = some x → net.Knows x) ∧ net.Starves trigger ⟨1⟩ ∧
      ∃ outcome, r.answer = .ok outcome ∧
        (∃ x, outcome.status = .inconsistent (.emptyDomain x) ∧ net.Starves trigger x) ∧
        (∀ x a, net.Has x a → ¬r.network.Has x a →
          net.Filters trigger x ∧ ¬net.Fitting trigger x a) ∧
        ∀ x, (r.network.vars.get? x).map Variable.assignments =
          (net.vars.get? x).map Variable.assignments := by
  intro net trigger r
  have hnet : net.Reachable :=
    .assign (x := ⟨0⟩) (a := 1) Network.reachable_orderedPair rfl
  have hknown : ∀ x, trigger = some x → net.Knows x := by
    intro x hx
    obtain rfl : ⟨0⟩ = x := Option.some.inj hx
    exact ⟨_, rfl⟩
  have hstarves : net.Starves trigger ⟨1⟩ := by
    let c : Constraint := .ofTuples "x < y" [⟨0⟩, ⟨1⟩] [[0, 1]]
    have hexamines : net.Examines trigger c := by
      refine ⟨⟨⟨0⟩, rfl⟩, fun x hx => ?_⟩
      obtain rfl : ⟨0⟩ = x := Option.some.inj hx
      exact List.mem_cons_self
    refine ⟨⟨c, hexamines, rfl⟩, ⟨0, _, rfl, rfl⟩, fun a ha => ?_⟩
    obtain ⟨t, ht, hvalues⟩ := ha.2 c hexamines rfl
    obtain rfl : t = [0, 1] := List.mem_singleton.mp (TupleSet.mem_ofList.mp ht)
    have hfirst : net.trial ⟨1⟩ a ⟨0⟩ = some 0 := (List.forall₂_cons.mp hvalues).1
    have hassigned : net.trial ⟨1⟩ a ⟨0⟩ = some 1 := rfl
    rw [hassigned] at hfirst
    cases hfirst
  obtain ⟨outcome, hanswer, -, hiff, hnamed, -, -, hgone, hassignments⟩ :=
    forward_filters_exactly hnet hknown {} (.empty none)
  obtain ⟨x, hx⟩ := hiff.mpr ⟨⟨1⟩, hstarves⟩
  exact ⟨hnet, hknown, hstarves, outcome, hanswer, ⟨x, hx, hnamed x hx⟩, hgone, hassignments⟩

end FiniteDomain
