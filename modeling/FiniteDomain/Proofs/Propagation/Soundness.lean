import FiniteDomain.Proofs.Propagation.Propagator
/-!
# Propagation is sound

Whatever was pruned or assigned before, and however often the propagator was called: no value of a
completion is ever removed, and a call fails only where there is no completion.
-/
namespace FiniteDomain

/-- The propagators that callers can have, after any calls on any networks. -/
inductive Propagator.Lived : Propagator → Prop
  | ofKind (kind : PropagatorKind) : Lived (.ofKind kind)
  | call {p : Propagator} {net : Network} {trigger : Option VariableId} (j : Journal) :
    Lived p → net.Reachable → net.MayTrigger trigger → Lived (p.call trigger net j).own

theorem Propagator.ready_ofKind (kind : PropagatorKind) : (ofKind kind).Ready := by
  cases kind with
  | check => trivial
  | forward => trivial
  | arc => exact ⟨Queue.coherent_empty, Queue.toList_empty⟩

theorem Propagator.Lived.ready {p : Propagator} (h : p.Lived) : p.Ready := by
  induction h with
  | ofKind kind => exact ready_ofKind kind
  | call j _ hnet htrigger ih =>
    obtain ⟨outcome, hbehaves⟩ := call_behaves hnet.wellFormed htrigger ih j
    exact hbehaves.ready

/-- A call keeps all values of all completions, and fails only if there are none. -/
theorem Propagator.completions_survive_call {p : Propagator} (hp : p.Lived) {net : Network}
    (hnet : net.Reachable) {trigger : Option VariableId} (htrigger : net.MayTrigger trigger)
    (j : Journal) :
    ∃ outcome, (p.call trigger net j).answer = .ok outcome ∧
      (∀ s, net.CompletedBy s →
        ∀ x a, s.get? x = some a → (p.call trigger net j).network.Has x a) ∧
      (outcome.status ≠ .consistent → ¬∃ s, net.CompletedBy s) := by
  obtain ⟨outcome, hbehaves⟩ := call_behaves hnet.wellFormed htrigger hp.ready j
  refine ⟨outcome, hbehaves.answer_eq, fun s hs x a hx => ?_, ?_⟩
  · rw [hbehaves.network_eq]
    exact (hbehaves.completedBy hs).offers hx
  · intro hstatus h
    obtain ⟨s, hs⟩ := h
    exact hbehaves.not_completedBy hstatus hs

theorem Propagator.completions_survive_call_orderedPair :
    let p := ((ofKind .arc).call none .orderedPair (.empty none)).own
    let net := Network.orderedPair.assigning ⟨0⟩ 0
    p.Lived ∧ net.Reachable ∧ net.MayTrigger (some ⟨0⟩) ∧
      ∃ outcome, (p.call (some ⟨0⟩) net (.empty none)).answer = .ok outcome ∧
        (∀ s, net.CompletedBy s → ∀ x a, s.get? x = some a →
          (p.call (some ⟨0⟩) net (.empty none)).network.Has x a) ∧
        (outcome.status ≠ .consistent → ¬∃ s, net.CompletedBy s) := by
  have hp : ((ofKind .arc).call none .orderedPair (.empty none)).own.Lived :=
    .call _ (.ofKind .arc) Network.reachable_orderedPair fun x hx => nomatch hx
  have hnet : (Network.orderedPair.assigning ⟨0⟩ 0).Reachable :=
    .assign (x := ⟨0⟩) (a := 0) Network.reachable_orderedPair rfl
  have htrigger : (Network.orderedPair.assigning ⟨0⟩ 0).MayTrigger (some ⟨0⟩) := by
    intro x hx
    cases hx
    exact ⟨0, rfl⟩
  exact ⟨hp, hnet, htrigger, completions_survive_call hp hnet htrigger _⟩

end FiniteDomain
