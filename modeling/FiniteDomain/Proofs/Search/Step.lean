import FiniteDomain.Proofs.Search.Exploration
/-!
# Single steps of a search

What each step of a search does to its state: none of them can fail where the exploration goes,
and taking back a decision gives back the network it was made on.
-/
namespace FiniteDomain.Search

variable {τ : Type} {net : Network} {g : Progress} {condition : τ} {wanted : Option Nat}
  {x : VariableId} {a : Int} {v : Variable} {name : String} {outcome : Outcome}
  {E : Breach → Search τ Propagator → Prop}

theorem ends_demand {α : Type} {m : Except Breach α} {b : α} {s : Search τ Propagator}
    {Q : α → Search τ Propagator → Prop} (h : m = .ok b) : Ends (demand m) s Q E ↔ Q b s := by
  rw [h]
  rfl

theorem ends_note {e : Event} {Q : PUnit → Search τ Propagator → Prop} :
    Ends (note e) (g.state net condition wanted) Q E ↔
      Q ⟨⟩ ({ g with journal := g.journal.record e }.state net condition wanted) :=
  Iff.rfl

theorem ends_count {f : Counters → Counters} {Q : PUnit → Search τ Propagator → Prop} :
    Ends (count f) (g.state net condition wanted) Q E ↔
      Q ⟨⟩ ((g.count f).state net condition wanted) :=
  Iff.rfl

theorem ends_setNetwork {net' : Network} {Q : PUnit → Search τ Propagator → Prop} :
    Ends (setNetwork net') (g.state net condition wanted) Q E ↔
      Q ⟨⟩ (g.state net' condition wanted) :=
  Iff.rfl

theorem ends_poll [Termination τ] {Q : Bool → Search τ Propagator → Prop} :
    Ends poll (g.state net condition wanted) Q E ↔
      Q (Termination.shouldStop condition).1
        (g.state net (Termination.shouldStop condition).2 wanted) :=
  Iff.rfl

theorem ends_restoreAll {removed : List Removal} (hwf : net.WellFormed) (hrec : net.Records removed)
    {Q : PUnit → Search τ Propagator → Prop} :
    Ends (restoreAll removed) (g.state (net.without removed) condition wanted) Q E ↔
      Q ⟨⟩ (g.state net condition wanted) := by
  have hback : (g.state (net.without removed) condition wanted).network.restoreAll removed =
      .ok net := Network.restoreAll_without hwf hrec (.refl removed)
  rw [restoreAll, ends_bind, ends_get, hback]
  exact Iff.rfl

theorem ends_undo (hwf : net.WellFormed) (hx : net.Knows x)
    (hrec : (net.assigning x a).Records outcome.removed)
    {Q : PUnit → Search τ Propagator → Prop} :
    Ends (undo x outcome.removed) (g.state (net.deciding x a outcome) condition wanted) Q E ↔
      Q ⟨⟩ (g.state net condition wanted) := by
  rw [undo, ends_bind, Network.deciding, ends_restoreAll (hwf.assigning x a) hrec, ends_bind,
    ends_get, ends_bind, Progress.network_state, ends_demand (Network.unassign_assigning hx),
    ends_setNetwork]

theorem ends_thenUndo {after after' : Ending → SearchM τ Propagator Ending}
    (h : ∀ ending, after ending = after' ending) (m : SearchM τ Propagator Ending)
    {removed : List Removal} {s : Search τ Propagator} {Q : Ending → Search τ Propagator → Prop} :
    Ends (m >>= fun ending => undo x removed >>= fun _ => after ending) s Q E ↔
      Ends m s (fun ending t => Ends (undo x removed) t (fun _ t => Ends (after' ending) t Q E) E)
        E := by
  rw [ends_bind]
  apply ends_congr
  intro ending t
  rw [ends_bind, h]

theorem ends_propagate {trigger : Option VariableId}
    (h : g.propagator.Behaves trigger net g.journal outcome)
    {Q : Outcome → Search τ Propagator → Prop} :
    Ends (propagate trigger) (g.state net condition wanted) Q E ↔
      Q outcome ((g.propagated trigger net outcome).state (net.without outcome.removed) condition
        wanted) := by
  have hstate : (g.propagated trigger net outcome).state (net.without outcome.removed) condition
      wanted = (g.propagated trigger net outcome).state
        (g.propagator.call trigger net g.journal).network condition wanted := by
    rw [h.network_eq]
  rw [propagate, ends_bind, ends_get, hstate]
  change Ends (demand (g.propagator.call trigger net g.journal).answer >>= fun outcome => _) _ Q E ↔ _
  rw [ends_bind, ends_demand h.answer_eq]
  exact Iff.rfl

theorem ends_makeDecision [Termination τ] (hdecides : Decides net g x a name outcome)
    {Q : Outcome → Search τ Propagator → Prop} :
    Ends (makeDecision x a) (g.state net condition wanted) Q E ↔
      Q outcome ((g.decided net name x a outcome).state (net.deciding x a outcome)
        (Termination.decisionMade condition) wanted) := by
  obtain ⟨v, hv, rfl⟩ := hdecides.named
  have hassign : net.assign x a = .ok (net.assigning x a) :=
    Network.assign_eq_ok hdecides.current
  have hfetch : net.variableAt x = .ok v := Store.fetch_of_get? hv
  rw [makeDecision, ends_bind, ends_get, ends_bind, Progress.network_state, ends_demand hfetch,
    ends_bind, ends_note, ends_bind, ends_get, ends_bind, Progress.network_state,
    ends_demand hassign, ends_bind, ends_setNetwork, ends_bind, ends_count, ends_bind]
  change Ends (propagate (some x) >>= fun outcome => _)
    ((g.chosen v.name a).state (net.assigning x a) (Termination.decisionMade condition) wanted) Q E ↔ _
  rw [ends_bind, ends_propagate hdecides.behaves]
  unfold Progress.decided
  by_cases hstatus : outcome.status.isConsistent = true
  · rw [if_pos hstatus, if_pos hstatus]
    exact Iff.rfl
  · rw [if_neg hstatus, if_neg hstatus]
    exact Iff.rfl

theorem ends_reportSolution {depth : Nat} {s : Solution} (hs : currentSolution net = .ok s)
    {Q : Ending → Search τ Propagator → Prop} :
    Ends (reportSolution depth) (g.state net condition wanted) Q E ↔
      Q (if wanted.map (· - 1) = some 0 then .interrupted else .exhausted)
        ((g.reported depth s).state net condition (wanted.map (· - 1))) := by
  rw [reportSolution, ends_bind, ends_get, ends_bind, Progress.network_state, ends_demand hs]
  exact Iff.rfl

theorem ends_orderedValues {selection : ValueSelection} (hv : net.vars.get? x = some v)
    {values : List Int} {generator : Generator}
    (horder : selection.order v.currentDomain g.generator = (values, generator))
    {Q : List Int → Search τ Propagator → Prop} :
    Ends (orderedValues selection x) (g.state net condition wanted) Q E ↔
      Q values ({ g with generator := generator }.state net condition wanted) := by
  have hfetch : net.variableAt x = .ok v := Store.fetch_of_get? hv
  rw [orderedValues, ends_bind, ends_get, ends_bind, Progress.network_state, ends_demand hfetch]
  change Ends (set { g.state net condition wanted with
    generator := (selection.order v.currentDomain g.generator).2 } >>= fun _ =>
      pure (selection.order v.currentDomain g.generator).1) _ Q E ↔ _
  rw [horder]
  exact Iff.rfl

end FiniteDomain.Search
