import FiniteDomain.Proofs.Propagation.Record
import FiniteDomain.Proofs.Propagation.Strength
/-!
# Arc consistency finds the most

On one and the same network, with any prunings and assignments, arc consistency fails wherever one
of the other kinds does. Where it goes on, so do they, and it has left them no value to remove that
it has not removed itself.
-/
namespace FiniteDomain

/-- A call can look at what a variable changed that is assigned one of its current values. -/
def Network.MayTriggerCurrent (net : Network) (trigger : Option VariableId) : Prop :=
  ∀ x, trigger = some x → ∃ a, net.assigned x = some a ∧ net.Has x a

variable {p q : Propagator} {net : Network} {trigger : Option VariableId} {j j' : Journal}
  {outcome outcome' : Outcome} {x : VariableId} {a : Int}

theorem Network.MayTriggerCurrent.mayTrigger (h : net.MayTriggerCurrent trigger) :
    net.MayTrigger trigger := by
  intro x hx
  obtain ⟨a, ha, -⟩ := h x hx
  exact ⟨a, ha⟩

theorem Network.MayTriggerCurrent.admits (h : net.MayTriggerCurrent trigger)
    (kind : PropagatorKind) : kind.Admits net trigger := by
  have hknown : ∀ x, trigger = some x → net.Knows x := by
    intro x hx
    obtain ⟨a, -, ha⟩ := h x hx
    exact ha.knows
  cases kind with
  | check => exact hknown
  | forward => exact hknown
  | arc => exact h.mayTrigger

theorem Propagator.Behaves.dominated_by_arc (h : p.Behaves trigger net j outcome)
    (h' : q.Behaves trigger net j' outcome') (hkind : p.kind = .arc)
    (hweaker : PropagatorKind.arc.Dominates q.kind) (htrigger : net.MayTriggerCurrent trigger)
    (hstatus : outcome.status = .consistent) :
    outcome'.status = .consistent ∧
      ∀ x a, (p.call trigger net j).network.Has x a → (q.call trigger net j').network.Has x a := by
  have hintact : ∀ x id c, trigger = some x → net.constraints.get? id = some c → x ∈ c.scope →
      ¬Check.Violated net c := by
    intro x id c hx hc hmem
    obtain ⟨a, hassigned, ha⟩ := htrigger x hx
    subst hx
    exact h.not_violated_of_arc hkind hstatus hassigned ha hc hmem
  obtain ⟨hstatus', hwithin⟩ := h.dominates h' (hkind ▸ hweaker) (.refl net) rfl hstatus hintact
  refine ⟨hstatus', fun x a ha => ?_⟩
  rw [h.network_eq] at ha
  rw [h'.network_eq]
  exact hwithin.has ha

/-- Called on the same network, arc consistency dominates plain checking and forward checking,
whatever calls the three have behind them. -/
theorem Propagator.arc_dominates {arc' forward' check' : Propagator} (harc : arc'.Called)
    (harc' : arc'.kind = .arc) (hforward : forward'.Called) (hforward' : forward'.kind = .forward)
    (hcheck : check'.Called) (hcheck' : check'.kind = .check) (hnet : net.Reachable)
    (htrigger : net.MayTriggerCurrent trigger) (j : Journal) :
    ∃ strongest middle weakest, (arc'.call trigger net j).answer = .ok strongest ∧
      (forward'.call trigger net j).answer = .ok middle ∧
      (check'.call trigger net j).answer = .ok weakest ∧
      (strongest.status = .consistent →
        weakest.status = .consistent ∧ middle.status = .consistent ∧
          ∀ x a, (arc'.call trigger net j).network.Has x a →
            (forward'.call trigger net j).network.Has x a) ∧
      (weakest.status ≠ .consistent ∨ middle.status ≠ .consistent →
        strongest.status ≠ .consistent) := by
  have hwf := hnet.wellFormed
  obtain ⟨strongest, h⟩ := call_behaves_of_admits hwf harc.ready (htrigger.admits _) j
  obtain ⟨middle, h'⟩ := call_behaves_of_admits hwf hforward.ready (htrigger.admits _) j
  obtain ⟨weakest, h''⟩ := call_behaves_of_admits hwf hcheck.ready (htrigger.admits _) j
  have hboth (hstatus : strongest.status = .consistent) : weakest.status = .consistent ∧
      middle.status = .consistent ∧ ∀ x a, (arc'.call trigger net j).network.Has x a →
        (forward'.call trigger net j).network.Has x a := by
    have hdominates : PropagatorKind.arc.Dominates forward'.kind := hforward' ▸ .forward
    have hdominates' : PropagatorKind.arc.Dominates check'.kind := hcheck' ▸ .check _
    obtain ⟨hmiddle, hhas⟩ := h.dominated_by_arc h' harc' hdominates htrigger hstatus
    obtain ⟨hweakest, -⟩ := h.dominated_by_arc h'' harc' hdominates' htrigger hstatus
    exact ⟨hweakest, hmiddle, hhas⟩
  refine ⟨strongest, middle, weakest, h.answer_eq, h'.answer_eq, h''.answer_eq, hboth, ?_⟩
  intro hfails hstatus
  obtain ⟨hweakest, hmiddle, -⟩ := hboth hstatus
  rcases hfails with hfails | hfails
  · exact hfails hweakest
  · exact hfails hmiddle

/-- On two ordered variables with both assigned and two values left to each. Told of the first, arc
consistency takes from either the value that is not assigned, and the others agree to go on. -/
theorem Propagator.arc_dominates_orderedPair :
    let net := (Network.orderedPair.assigning ⟨0⟩ 0).assigning ⟨1⟩ 1
    (ofKind .arc).Called ∧ (ofKind .forward).Called ∧ (ofKind .check).Called ∧
      net.Reachable ∧ net.MayTriggerCurrent (some ⟨0⟩) ∧
      ((ofKind .arc).call (some ⟨0⟩) net (.empty none)).answer =
        .ok ⟨.consistent, [⟨⟨0⟩, 1⟩, ⟨⟨1⟩, 0⟩]⟩ ∧
      ∃ middle weakest, ((ofKind .forward).call (some ⟨0⟩) net (.empty none)).answer = .ok middle ∧
        ((ofKind .check).call (some ⟨0⟩) net (.empty none)).answer = .ok weakest ∧
        weakest.status = .consistent ∧ middle.status = .consistent ∧
        ∀ x a, ((ofKind .arc).call (some ⟨0⟩) net (.empty none)).network.Has x a →
          ((ofKind .forward).call (some ⟨0⟩) net (.empty none)).network.Has x a := by
  have hanswer : ((ofKind .arc).call (some ⟨0⟩)
      ((Network.orderedPair.assigning ⟨0⟩ 0).assigning ⟨1⟩ 1) (.empty none)).answer =
      .ok ⟨.consistent, [⟨⟨0⟩, 1⟩, ⟨⟨1⟩, 0⟩]⟩ := by rfl
  intro net
  have hone : (Network.orderedPair.assigning ⟨0⟩ 0).Reachable :=
    .assign (x := ⟨0⟩) (a := 0) Network.reachable_orderedPair rfl
  have hnet : net.Reachable := .assign (x := ⟨1⟩) (a := 1) hone rfl
  have htrigger : net.MayTriggerCurrent (some ⟨0⟩) := by
    intro x hx
    cases hx
    exact ⟨0, rfl, _, rfl, rfl⟩
  obtain ⟨strongest, middle, weakest, hstrongest, hmiddle, hweakest, hboth, -⟩ :=
    arc_dominates (.ofKind .arc) rfl (.ofKind .forward) rfl (.ofKind .check) rfl hnet htrigger
      (.empty none)
  have hstatus : strongest.status = .consistent :=
    congrArg Outcome.status (Except.ok.inj (hstrongest.symm.trans hanswer))
  exact ⟨.ofKind .arc, .ofKind .forward, .ofKind .check, hnet, htrigger, hanswer, middle, weakest,
    hmiddle, hweakest, hboth hstatus⟩

end FiniteDomain
