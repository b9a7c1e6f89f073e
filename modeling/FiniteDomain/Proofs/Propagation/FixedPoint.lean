import FiniteDomain.Proofs.Network.Rearrangement
import FiniteDomain.Proofs.Propagation.Soundness
/-!
# The fixed point of arc consistency

A call without a trigger reaches the greatest self-supported family of values, or fails where it
has none for a variable that had values. In which order constraints are revised plays no part.
-/
namespace FiniteDomain

variable {p : Propagator} {net net' : Network} {j : Journal} {outcome : Outcome}
  {x : VariableId} {a : Int}

namespace Propagator.Behaves

theorem not_core_of_mem (h : p.Behaves none net j outcome) (hkind : p.kind = .arc) {r : Removal}
    (hr : r ∈ outcome.removed) : ¬net.Core r.var r.value := by
  have hdiscards := h.discards r hr
  rw [hkind] at hdiscards
  exact Network.unsupported_none_iff.mp hdiscards

theorem has_of_core (h : p.Behaves none net j outcome) (hkind : p.kind = .arc)
    (ha : net.Core x a) : (net.without outcome.removed).Has x a := by
  have hcurrent : net.Has x a := net.selfSupported_core.current ha
  have hstays : (⟨x, a⟩ : Removal) ∉ outcome.removed := fun hmem => h.not_core_of_mem hkind hmem ha
  exact Network.has_without.mpr ⟨hcurrent, hstays⟩

/-- A consistent answer leaves the greatest family. -/
theorem has_iff_core (h : p.Behaves none net j outcome) (hkind : p.kind = .arc)
    (hstatus : outcome.status = .consistent) :
    (net.without outcome.removed).Has x a ↔ net.Core x a := by
  have hsettles := h.settles hstatus
  have hdiscards := h.discards
  rw [hkind] at hsettles hdiscards
  exact Network.has_without_iff_core hdiscards
    fun id c hc => hsettles.1 id c hc fun x hx => nomatch hx

theorem eq_emptyDomain (h : p.Behaves none net j outcome) (hkind : p.kind = .arc)
    (hstatus : outcome.status ≠ .consistent) :
    ∃ x, outcome.status = .inconsistent (.emptyDomain x) :=
  h.exists_emptyDomain (by simp [hkind]) hstatus

/-- A call fails exactly where the greatest family has lost a variable that had values. -/
theorem emptyDomain_iff (h : p.Behaves none net j outcome) (hkind : p.kind = .arc) :
    (∃ x, outcome.status = .inconsistent (.emptyDomain x)) ↔
      ∃ x, (∃ a, net.Has x a) ∧ ∀ a, ¬net.Core x a := by
  constructor
  · intro hfails
    obtain ⟨x, hx⟩ := hfails
    have hemptied := h.emptied hx
    obtain ⟨rs, a, hlast⟩ := hemptied.last
    have ha : net.Has x a := h.records.current ⟨x, a⟩ (by simp [hlast])
    exact ⟨x, ⟨a, ha⟩, fun b hb => hemptied.empty b (h.has_of_core hkind hb)⟩
  · intro hlost
    obtain ⟨x, ⟨a, ha⟩, hnone⟩ := hlost
    apply h.eq_emptyDomain hkind
    intro hstatus
    have houtlived : net.OutlivedBy (net.without outcome.removed) := by
      rw [← h.network_eq]
      exact h.outlived hstatus
    obtain ⟨b, hb⟩ := houtlived ha
    exact hnone b ((h.has_iff_core hkind hstatus).mp hb)

theorem consistent_iff (h : p.Behaves none net j outcome) (hkind : p.kind = .arc) :
    outcome.status = .consistent ↔ ∀ x, (∃ a, net.Has x a) → ∃ a, net.Core x a := by
  constructor
  · intro hstatus x ha
    by_contra hnone
    obtain ⟨y, hy⟩ := (h.emptyDomain_iff hkind).mpr ⟨x, ha, not_exists.mp hnone⟩
    rw [hstatus] at hy
    cases hy
  · intro hall
    by_contra hstatus
    obtain ⟨x, ha, hnone⟩ := (h.emptyDomain_iff hkind).mp (h.eq_emptyDomain hkind hstatus)
    obtain ⟨a, ha⟩ := hall x ha
    exact hnone a ha

end Propagator.Behaves

theorem Network.vars_without_congr {rs rs' : List Removal} (hvars : net.vars = net'.vars)
    (h : ∀ x a, (net.without rs).Has x a ↔ (net'.without rs').Has x a) :
    (net.without rs).vars = (net'.without rs').vars := by
  apply Store.ext_get?
  intro x
  rw [get?_without, get?_without, ← hvars]
  cases hv : net.vars.get? x with
  | none => rfl
  | some v =>
    apply congrArg some
    apply Variable.without_congr
    intro a ha
    have hiff := h x a
    have hcurrent : net.Has x a := ⟨v, hv, ha⟩
    have hcurrent' : net'.Has x a := ⟨v, hvars ▸ hv, ha⟩
    rw [has_without, has_without] at hiff
    rw [Bool.eq_iff_iff, List.contains_iff_mem, List.contains_iff_mem]
    tauto

/-- Arc consistency reaches the greatest self-supported family, whatever the order of the
constraints and of their scopes. -/
theorem Propagator.arc_reaches_core (hp : p.Lived) (hkind : p.kind = .arc) (hnet : net.Reachable)
    (j : Journal) :
    net.SelfSupported net.Core ∧ (∀ G, net.SelfSupported G → ∀ x a, G x a → net.Core x a) ∧
    ∃ outcome, (p.call none net j).answer = .ok outcome ∧
      (outcome.status = .consistent ∨ ∃ x, outcome.status = .inconsistent (.emptyDomain x)) ∧
      ((∃ x, outcome.status = .inconsistent (.emptyDomain x)) ↔
        ∃ x, (∃ a, net.Has x a) ∧ ∀ a, ¬net.Core x a) ∧
      (outcome.status = .consistent →
        ∀ x a, (p.call none net j).network.Has x a ↔ net.Core x a) ∧
      (∀ x a, (p.call none net j).network.Has x a → net.Has x a) ∧
      (∀ x a, net.Has x a → ¬(p.call none net j).network.Has x a → ¬net.Core x a) ∧
      ∀ q : Propagator, q.Lived → q.kind = .arc → ∀ net' : Network, net'.Reachable →
        net.Rearranges net' → ∀ j', ∃ outcome', (q.call none net' j').answer = .ok outcome' ∧
          (outcome'.status = .consistent ↔ outcome.status = .consistent) ∧
          (outcome.status = .consistent →
            (q.call none net' j').network.vars = (p.call none net j).network.vars) := by
  obtain ⟨outcome, h⟩ := call_behaves hnet.wellFormed net.mayTrigger_none hp.ready j
  refine ⟨net.selfSupported_core, fun G hG x a ha => hG.core ha, outcome, h.answer_eq, ?_,
    h.emptyDomain_iff hkind, ?_, ?_, ?_, ?_⟩
  · by_cases hstatus : outcome.status = .consistent
    · exact .inl hstatus
    · exact .inr (h.eq_emptyDomain hkind hstatus)
  · intro hstatus x a
    rw [h.network_eq]
    exact h.has_iff_core hkind hstatus
  · intro x a ha
    rw [h.network_eq] at ha
    exact (Network.has_without.mp ha).1
  · intro x a _ hgone hcore
    rw [h.network_eq] at hgone
    exact hgone (h.has_of_core hkind hcore)
  · intro q hq hkind' net' hnet' hrearranges j'
    have hcore (x : VariableId) (a : Int) : net.Core x a ↔ net'.Core x a :=
      hrearranges.core_iff hnet.wellFormed hnet'.wellFormed
    obtain ⟨outcome', h'⟩ := call_behaves hnet'.wellFormed net'.mayTrigger_none hq.ready j'
    have hstatus : outcome'.status = .consistent ↔ outcome.status = .consistent := by
      rw [h.consistent_iff hkind, h'.consistent_iff hkind']
      simp only [hcore, hrearranges.has_iff]
    refine ⟨outcome', h'.answer_eq, hstatus, fun hconsistent => ?_⟩
    rw [h.network_eq, h'.network_eq]
    apply Network.vars_without_congr hrearranges.vars_eq.symm
    intro x a
    rw [h.has_iff_core hkind hconsistent, h'.has_iff_core hkind' (hstatus.mpr hconsistent), hcore]

/-- On two ordered variables of which the first is zero, with the constraints in both orders and the
pair written both ways. The first propagator has been called before. -/
theorem Propagator.arc_reaches_core_orderedPair :
    let zero : Constraint := .ofTuples "x = 0" [⟨0⟩] [[0]]
    let net : Network := { Network.orderedPair with
      constraints := ⟨#[.ofTuples "x < y" [⟨0⟩, ⟨1⟩] [[0, 1]], zero]⟩
      containing := ⟨#[[⟨0⟩, ⟨1⟩], [⟨0⟩]]⟩ }
    let net' : Network := { Network.orderedPair with
      constraints := ⟨#[zero, .ofTuples "y > x" [⟨1⟩, ⟨0⟩] [[1, 0]]]⟩
      containing := ⟨#[[⟨0⟩, ⟨1⟩], [⟨1⟩]]⟩ }
    let p := ((ofKind .arc).call none .orderedPair (.empty none)).own
    let q := ofKind .arc
    p.Lived ∧ p.kind = .arc ∧ net.Reachable ∧ q.Lived ∧ q.kind = .arc ∧ net'.Reachable ∧
      net.Rearranges net' ∧
      ∃ outcome outcome', (p.call none net (.empty none)).answer = .ok outcome ∧
        (q.call none net' (.empty none)).answer = .ok outcome' ∧
        ((∃ x, outcome.status = .inconsistent (.emptyDomain x)) ↔
          ∃ x, (∃ a, net.Has x a) ∧ ∀ a, ¬net.Core x a) ∧
        (outcome'.status = .consistent ↔ outcome.status = .consistent) ∧
        (outcome.status = .consistent → (q.call none net' (.empty none)).network.vars =
          (p.call none net (.empty none)).network.vars) := by
  intro zero net net' p q
  have hp : p.Lived := .call _ (.ofKind .arc) Network.reachable_orderedPair
    (Network.mayTrigger_none _)
  have hadd : Network.orderedPair.addConstraint zero = .ok (⟨1⟩, net) := rfl
  have hnet : net.Reachable := .addConstraint Network.reachable_orderedPair hadd
  have hx : Network.addVariable .empty "x" [0, 1] =
      .ok (⟨0⟩, ⟨⟨#[.ofDomain "x" [0, 1]]⟩, .empty, ⟨#[[]]⟩⟩) := rfl
  have hy : Network.addVariable ⟨⟨#[.ofDomain "x" [0, 1]]⟩, .empty, ⟨#[[]]⟩⟩ "y" [0, 1] =
      .ok (⟨1⟩, ⟨Network.orderedPair.vars, .empty, ⟨#[[], []]⟩⟩) := rfl
  have hzero : Network.addConstraint ⟨Network.orderedPair.vars, .empty, ⟨#[[], []]⟩⟩ zero =
      .ok (⟨0⟩, ⟨Network.orderedPair.vars, ⟨#[zero]⟩, ⟨#[[⟨0⟩], []]⟩⟩) := rfl
  have hlast : Network.addConstraint
      ⟨Network.orderedPair.vars, ⟨#[zero]⟩, ⟨#[[⟨0⟩], []]⟩⟩
      (.ofTuples "y > x" [⟨1⟩, ⟨0⟩] [[1, 0]]) = .ok (⟨1⟩, net') := rfl
  have hnet' : net'.Reachable :=
    .addConstraint (.addConstraint (.addVariable (.addVariable .empty hx) hy) hzero) hlast
  have hsame : zero.Rearranges zero :=
    ⟨.refl _, fun t ht => ⟨t, ht, .refl _⟩, fun t ht => ⟨t, ht, .refl _⟩⟩
  have hturned : (Constraint.ofTuples "x < y" [⟨0⟩, ⟨1⟩] [[0, 1]]).Rearranges
      (.ofTuples "y > x" [⟨1⟩, ⟨0⟩] [[1, 0]]) := by
    refine ⟨.swap _ _ _, fun t ht => ⟨[1, 0], ?_, ?_⟩, fun t ht => ⟨[0, 1], ?_, ?_⟩⟩
    · simp [Constraint.ofTuples]
    · rw [List.mem_singleton.mp (TupleSet.mem_ofList.mp ht)]
      exact .swap _ _ _
    · simp [Constraint.ofTuples]
    · rw [List.mem_singleton.mp (TupleSet.mem_ofList.mp ht)]
      exact .swap _ _ _
  have hrearranges : net.Rearranges net' :=
    ⟨rfl, _, .swap _ _ _, .cons hsame (.cons hturned .nil)⟩
  obtain ⟨-, -, outcome, hanswer, -, hfails, -, -, -, horder⟩ :=
    arc_reaches_core hp rfl hnet (.empty none)
  obtain ⟨outcome', hanswer', hstatus, hvars⟩ :=
    horder q (.ofKind .arc) rfl net' hnet' hrearranges (.empty none)
  exact ⟨hp, rfl, hnet, .ofKind .arc, rfl, hnet', hrearranges, outcome, outcome', hanswer, hanswer',
    hfails, hstatus, hvars⟩

end FiniteDomain
