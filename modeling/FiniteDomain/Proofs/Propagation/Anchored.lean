import FiniteDomain.Proofs.Propagation.Record
/-!
# Assigned values under propagation

The check removes nothing, and forward checking takes values of unassigned variables only: what is
assigned stays current. Arc consistency treats assigned variables like any other, apart from its
trigger. It takes an assigned value that is unsupported, and answers consistent as long as the
variable has another.
-/
namespace FiniteDomain

/-- Every assigned variable has its value in the current domain. -/
def Network.Anchored (net : Network) : Prop :=
  ∀ x b, net.assigned x = some b → net.Has x b

variable {p : Propagator} {net : Network} {trigger : Option VariableId} {j : Journal}
  {outcome : Outcome} {x : VariableId} {a b : Int}

theorem Network.Unsupported.not_completedBy (hx : net.assigned x = some b)
    (h : net.Unsupported trigger ⟨x, b⟩) (s : Solution) : ¬net.CompletedBy s := by
  intro hs
  exact hs.not_unsupported (hs.agrees hx) h

namespace Propagator.Behaves

theorem unsupported_of_assigned (h : p.Behaves trigger net j outcome)
    (hx : net.assigned x = some b) (hmem : (⟨x, a⟩ : Removal) ∈ outcome.removed) :
    p.kind = .arc ∧ net.Unsupported trigger ⟨x, a⟩ := by
  have hdiscards := h.discards _ hmem
  cases hkind : p.kind with
  | check =>
    rw [hkind] at hdiscards
    exact hdiscards.elim
  | forward =>
    rw [hkind] at hdiscards
    exact absurd hdiscards (Network.not_unfit_of_assigned hx)
  | arc =>
    rw [hkind] at hdiscards
    exact ⟨rfl, hdiscards⟩

theorem unsupported_of_lost (h : p.Behaves trigger net j outcome) (hanchored : net.Anchored)
    (hx : net.assigned x = some b) (hlost : ¬(net.without outcome.removed).Has x b) :
    p.kind = .arc ∧ net.Unsupported trigger ⟨x, b⟩ := by
  refine h.unsupported_of_assigned hx ?_
  by_contra hnot
  exact hlost (Network.has_without.mpr ⟨hanchored x b hx, hnot⟩)

theorem respects (h : p.Behaves trigger net j outcome) (hkind : p.kind = .arc)
    (hstatus : outcome.status = .consistent) :
    net.Respects trigger (net.without outcome.removed).Has := by
  have hsettles := h.settles hstatus
  rw [hkind] at hsettles
  intro x a b hx hassigned ha
  exact hsettles.2 hx ((Network.assigned_without ..).trans hassigned) ha

/-- A consistent answer leaves a variable that has lost its assigned value another one; the trigger
cannot be such a variable. -/
theorem exists_other_of_lost (h : p.Behaves trigger net j outcome) (hkind : p.kind = .arc)
    (hstatus : outcome.status = .consistent) (hanchored : net.Anchored)
    (hx : net.assigned x = some b) (hlost : ¬(net.without outcome.removed).Has x b) :
    trigger ≠ some x ∧ ∃ a, a ≠ b ∧ (net.without outcome.removed).Has x a := by
  obtain ⟨a, ha⟩ := h.outlived hstatus (hanchored x b hx)
  rw [h.network_eq] at ha
  have hne : a ≠ b := by
    rintro rfl
    exact hlost ha
  exact ⟨fun htrigger => hne (h.respects hkind hstatus htrigger hx ha), a, hne, ha⟩

/-- With every constraint looked at, or in no need of it, a consistent answer leaves the values that
are not unsupported. -/
theorem has_iff_not_unsupported (h : p.Behaves trigger net j outcome) (hkind : p.kind = .arc)
    (hstatus : outcome.status = .consistent)
    (hdue : ∀ id c, net.constraints.get? id = some c → net.Due trigger c) :
    (net.without outcome.removed).Has x a ↔ net.Has x a ∧ ¬net.Unsupported trigger ⟨x, a⟩ := by
  have hdiscards := h.discards
  have hsettles := h.settles hstatus
  rw [hkind] at hdiscards hsettles
  exact Network.has_without_iff_not_unsupported hdiscards
    (fun id c hc => hsettles.1 id c hc (hdue id c hc)) (h.respects hkind hstatus)

end Propagator.Behaves

/-- The check and forward checking keep assigned values current. Arc consistency, where it answers
consistent, loses only unsupported ones, of variables other than its trigger that have another value
left; where every constraint is looked at or needs no look, it loses all of those. -/
theorem Propagator.assigned_values_kept_iff (hp : p.Called) (hnet : net.Reachable)
    (hanchored : net.Anchored) (htrigger : net.MayTrigger trigger) (j : Journal) :
    ∃ outcome, (p.call trigger net j).answer = .ok outcome ∧
      (p.kind ≠ .arc → (p.call trigger net j).network.Anchored) ∧
      (p.kind = .arc → outcome.status = .consistent →
        (∀ x b, net.assigned x = some b → ¬(p.call trigger net j).network.Has x b →
          trigger ≠ some x ∧ net.Unsupported trigger ⟨x, b⟩ ∧ (∀ s, ¬net.CompletedBy s) ∧
            ∃ a, a ≠ b ∧ (p.call trigger net j).network.Has x a) ∧
        ((∀ id c, net.constraints.get? id = some c → net.Due trigger c) →
          ((p.call trigger net j).network.Anchored ↔
            ∀ x b, net.assigned x = some b → ¬net.Unsupported trigger ⟨x, b⟩))) := by
  obtain ⟨outcome, h⟩ := call_behaves hnet.wellFormed htrigger hp.ready j
  rw [h.network_eq]
  refine ⟨outcome, h.answer_eq, fun hkind x b hx => ?_, fun hkind hstatus => ⟨?_, fun hdue => ?_⟩⟩
  · rw [Network.assigned_without] at hx
    by_contra hlost
    exact hkind (h.unsupported_of_lost hanchored hx hlost).1
  · intro x b hx hlost
    obtain ⟨-, hunsupported⟩ := h.unsupported_of_lost hanchored hx hlost
    obtain ⟨hother, hleft⟩ := h.exists_other_of_lost hkind hstatus hanchored hx hlost
    exact ⟨hother, hunsupported, hunsupported.not_completedBy hx, hleft⟩
  · constructor
    · intro hkept x b hx
      have hb := hkept x b ((Network.assigned_without ..).trans hx)
      exact ((h.has_iff_not_unsupported hkind hstatus hdue).mp hb).2
    · intro hsupported x b hx
      rw [Network.assigned_without] at hx
      exact (h.has_iff_not_unsupported hkind hstatus hdue).mpr
        ⟨hanchored x b hx, hsupported x b hx⟩

theorem Propagator.assigned_values_kept_iff_orderedPair :
    let net := (Network.orderedPair.assigning ⟨0⟩ 0).assigning ⟨1⟩ 1
    let p := ((ofKind .arc).call none .orderedPair (.empty none)).own
    p.Called ∧ net.Reachable ∧ net.Anchored ∧ net.MayTrigger (some ⟨1⟩) ∧
      (∀ id c, net.constraints.get? id = some c → net.Due (some ⟨1⟩) c) ∧
      (p.call (some ⟨1⟩) net (.empty none)).network.Anchored := by
  intro net p
  have hp : p.Called := .call _ _ (.ofKind .arc) Network.reachable_orderedPair
  have hfirst : (Network.orderedPair.assigning ⟨0⟩ 0).Reachable :=
    .assign (x := ⟨0⟩) (a := 0) Network.reachable_orderedPair rfl
  have hnet : net.Reachable := .assign (x := ⟨1⟩) (a := 1) hfirst rfl
  have hanchored : net.Anchored
    | ⟨0⟩, _, rfl => ⟨_, rfl, rfl⟩
    | ⟨1⟩, _, rfl => ⟨_, rfl, rfl⟩
  have htrigger : net.MayTrigger (some ⟨1⟩) := fun x hx => ⟨1, Option.some.inj hx ▸ rfl⟩
  have hdue : ∀ id c, net.constraints.get? id = some c → net.Due (some ⟨1⟩) c
    | ⟨0⟩, _, rfl, _, rfl => .inl (by decide)
  obtain ⟨outcome, hanswer, -, harc⟩ :=
    assigned_values_kept_iff hp hnet hanchored htrigger (.empty none)
  have hconsistent : ((p.call (some ⟨1⟩) net (.empty none)).answer.toOption.map
      Outcome.status) = some .consistent := by decide +kernel
  have hstatus : outcome.status = .consistent := by
    rw [hanswer] at hconsistent
    exact Option.some.inj hconsistent
  refine ⟨hp, hnet, hanchored, htrigger, hdue, ((harc rfl hstatus).2 hdue).mpr fun x b hx => ?_⟩
  have hsolution : net.CompletedBy ⟨#[0, 1]⟩ := by
    have hoffers : net.Offers ⟨#[0, 1]⟩
      | ⟨0⟩, _, rfl => ⟨_, rfl, rfl⟩
      | ⟨1⟩, _, rfl => ⟨_, rfl, rfl⟩
    refine ⟨Network.isSolution_eq_ok_true.mp (by decide +kernel), hoffers, fun {x a} hx => ?_⟩
    match x, a, hx with
    | ⟨0⟩, _, rfl => rfl
    | ⟨1⟩, _, rfl => rfl
  exact hsolution.not_unsupported (hsolution.agrees hx)

/-- Arc consistency takes the assigned value of both variables of the pair, and answers
consistent. -/
theorem Propagator.assigned_value_lost :
    let net := Network.clashingPair
    let r := (ofKind .arc).call none net (.empty none)
    net.Reachable ∧ net.Anchored ∧ net.MayTrigger none ∧
      ∃ outcome, r.answer = .ok outcome ∧ outcome.status = .consistent ∧ ¬r.network.Anchored := by
  intro net r
  have hanchored : net.Anchored
    | ⟨0⟩, _, rfl => ⟨_, rfl, rfl⟩
    | ⟨1⟩, _, rfl => ⟨_, rfl, rfl⟩
  have hconsistent : r.answer.toOption.map Outcome.status = some .consistent := by decide +kernel
  have hx : (r.network.vars.get? ⟨0⟩).map (·.contains 1) = some false := by decide +kernel
  have hassigned : r.network.assigned ⟨0⟩ = some 1 := by decide +kernel
  obtain ⟨outcome, h⟩ := call_behaves Network.reachable_clashingPair.wellFormed
    (Network.mayTrigger_none _) (ready_ofKind .arc) (.empty none)
  have hanswer : r.answer = .ok outcome := h.answer_eq
  rw [hanswer] at hconsistent
  refine ⟨Network.reachable_clashingPair, hanchored, Network.mayTrigger_none _, outcome, hanswer,
    Option.some.inj hconsistent, fun hkept => ?_⟩
  obtain ⟨v, hv, hb⟩ := hkept ⟨0⟩ 1 hassigned
  rw [hv, Option.map_some, hb] at hx
  cases hx

end FiniteDomain
