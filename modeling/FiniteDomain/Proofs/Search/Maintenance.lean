import FiniteDomain.Proofs.Search.Observation
import FiniteDomain.Proofs.Search.Sequence
/-!
# What every call of a search maintains

From a network without assigned variables on, each consistent call leaves what its propagator keeps
up, and each decision is taken back before the next one is made. So the record of a watched search
has no consistent call that leaves less. With arc consistency this is the consistency of all
constraints, whichever of them the call looked at.
-/
namespace FiniteDomain

/-- The call left the constraints of the network, and what the kind keeps up where it succeeded. -/
def Observation.Keeps (kind : PropagatorKind) (net : Network) (call : Observation) : Prop :=
  call.network.constraints = net.constraints ∧
    ∀ outcome, call.answer = .ok outcome → outcome.status = .consistent →
      call.network.WellFormed ∧ kind.Keeps call.network

variable {τ : Type} [Termination τ] {options : Options} {goal : Goal} {depth unassigned : Nat}
  {first net : Network} {g g' : Progress} {steps : List Step} {condition : τ}
  {wanted : Option Nat} {x : VariableId} {a : Int} {name : String} {outcome : Outcome}
  {kind : PropagatorKind} {P : Observation → Prop} {calls : List Observation}
  {solver : Solver} {detail : Option Level}

section
variable {descend : SearchM τ Watched Ending} {descend' : SearchM τ Propagator Ending}
  {rest : List Int}

/-- What is done below a decision leaves its network, and once it is taken back the other values are
tried in the same way. -/
private def Returns (P : Observation → Prop) (net : Network) (x : VariableId)
    (descend : SearchM τ Watched Ending) (descend' : SearchM τ Propagator Ending) (rest : List Int)
    (below : Network) (ending : Ending) (t : Search τ Propagator) : Prop :=
  ∃ g condition wanted, t = Progress.state g below condition wanted ∧
    (ending = .exhausted → ∀ calls, Watches P (Search.tryValues descend x rest)
      (Search.tryValues descend' x rest) (g.state net condition wanted) calls)

private theorem watches_thenUndo {m : SearchM τ Watched Ending} {m' : SearchM τ Propagator Ending}
    {after : Ending → SearchM τ Watched Ending} {after' : Ending → SearchM τ Propagator Ending}
    {s : Search τ Propagator} (hwf : net.WellFormed) (hdecides : Decides net g x a name outcome)
    (hafter : ∀ ending, after ending =
      if ending = .exhausted then Search.tryValues descend x rest else pure ending)
    (hafter' : ∀ ending, after' ending =
      if ending = .exhausted then Search.tryValues descend' x rest else pure ending)
    (hm : Watches P m m' s calls)
    (hends : Ends m' s (Returns P net x descend descend' rest (net.deciding x a outcome))
      fun _ _ => True) :
    Watches P (m >>= fun ending => Search.undo x outcome.removed >>= fun _ => after ending)
      (m' >>= fun ending => Search.undo x outcome.removed >>= fun _ => after' ending) s calls := by
  have hknows := hdecides.current.knows
  have hrecords := hdecides.behaves.records
  refine hm.bind (hends.mono (fun ending t h calls => ?_) fun _ _ h => h)
  obtain ⟨g', condition', wanted', rfl, hrest⟩ := h
  refine (watches_undo hwf hknows hrecords).bind ((Search.ends_undo hwf hknows hrecords).mpr ?_)
  intro calls
  rw [hafter, hafter']
  by_cases hending : ending = .exhausted
  · rw [if_pos hending, if_pos hending]
    exact hrest hending calls
  · rw [if_neg hending, if_neg hending]
    exact watches_pure ending

private theorem watches_tryValues_cons (hwf : net.WellFormed)
    (hdecides : Decides net g x a name outcome)
    (hP : P ⟨some x, net.deciding x a outcome, .ok outcome⟩)
    (hbelow : ∀ condition calls,
      Watches P (if outcome.status.isConsistent then descend else pure .exhausted)
        (if outcome.status.isConsistent then descend' else pure .exhausted)
        ((g.decided net name x a outcome).state (net.deciding x a outcome) condition wanted) calls)
    (hends : ∀ condition,
      Ends (if outcome.status.isConsistent then descend' else pure .exhausted)
        ((g.decided net name x a outcome).state (net.deciding x a outcome) condition wanted)
        (Returns P net x descend descend' rest (net.deciding x a outcome)) fun _ _ => True) :
    Watches P (Search.tryValues descend x (a :: rest)) (Search.tryValues descend' x (a :: rest))
      (g.state net condition wanted) calls := by
  have hbelow := hbelow (Termination.shouldStop (Termination.decisionMade condition)).2
  have hends := hends (Termination.shouldStop (Termination.decisionMade condition)).2
  rw [Search.tryValues, Search.tryValues]
  refine (watches_makeDecision hdecides hP).bind ((Search.ends_makeDecision hdecides).mpr fun calls => ?_)
  refine watches_poll.bind (Search.ends_poll.mpr fun calls => ?_)
  by_cases hstop : (Termination.shouldStop (Termination.decisionMade condition)).1 = true
  · rw [if_pos hstop, if_pos hstop]
    have hreturns (t : Progress) (condition : τ) : Returns P net x descend descend' rest
        (net.deciding x a outcome) .stopped (t.state (net.deciding x a outcome) condition wanted) :=
      ⟨_, _, _, rfl, fun hending => by cases hending⟩
    exact watches_thenUndo hwf hdecides (fun ending => by cases ending <;> rfl)
      (fun ending => by cases ending <;> rfl) (watches_pure _) (ends_pure.mpr (hreturns _ _))
  · rw [if_neg hstop, if_neg hstop]
    by_cases hstatus : outcome.status.isConsistent = true
    · rw [if_pos hstatus] at hends
      simp only [if_pos hstatus] at hbelow
      rw [if_pos hstatus, if_pos hstatus]
      exact watches_thenUndo hwf hdecides (fun ending => by cases ending <;> rfl)
        (fun ending => by cases ending <;> rfl) (hbelow calls) hends
    · rw [if_neg hstatus] at hends
      simp only [if_neg hstatus] at hbelow
      rw [if_neg hstatus, if_neg hstatus]
      exact watches_thenUndo hwf hdecides (fun ending => by cases ending <;> rfl)
        (fun ending => by cases ending <;> rfl) (hbelow calls) hends

end

/-- Below a node that keeps up what its kind does, every call does so. -/
theorem Explores.watches (h : Explores options goal depth net g steps g')
    (hkind : g.propagator.kind = kind) (hnet : net.Explorable kind)
    (hconstraints : net.constraints = first.constraints)
    (hbound : net.unassigned.length ≤ unassigned) (condition : τ) (wanted : Option Nat)
    (calls : List Observation) :
    Watches (Observation.Keeps kind first) (goal.search options unassigned depth)
      (goal.search options unassigned depth) (g.state net condition wanted) calls := by
  -- Along the exploration: a decision that goes on leads to a network that keeps up what its kind does,
  -- and one that does not is taken back before anything relies on it.
  induction h generalizing unassigned condition wanted calls with
  | @leaf depth net g s hselect hs =>
    cases unassigned with
    | zero => exact watches_reportSolution hs
    | succ unassigned =>
      rw [Goal.search, Goal.search, Search.explore, Search.explore]
      refine .get ?_
      rw [Search.network_watching, Progress.network_state, hselect]
      exact watches_reportSolution hs
  | @node depth net g g' x v values generator steps hselect hv horder _ ih =>
    cases unassigned with
    | zero =>
      have hmem := VariableSelection.mem_of_select hselect
      rw [List.length_eq_zero_iff.mp (Nat.le_zero.mp hbound)] at hmem
      cases hmem
    | succ unassigned =>
      rw [Goal.search, Goal.search, Search.explore, Search.explore]
      refine .get ?_
      rw [Search.network_watching, Progress.network_state, hselect]
      refine (watches_orderedValues hv).bind ((Search.ends_orderedValues hv horder).mpr fun calls => ?_)
      refine (watches_count rfl).bind (Search.ends_count.mpr fun calls => ?_)
      exact ih hkind hnet hconstraints hbound condition wanted calls
  | usedUp =>
    rw [Goal.search, Goal.search, Search.tryValues, Search.tryValues]
    refine (watches_count rfl).bind (Search.ends_count.mpr fun calls => ?_)
    refine watches_poll.bind (Search.ends_poll.mpr fun calls => ?_)
    exact watches_pure _
  | @deadEnd x a rest depth net g g' name outcome steps hdecides hstatus _ ih =>
    have hnot := mt Status.isConsistent_eq_true_iff.mp hstatus
    have hP : Observation.Keeps kind first ⟨some x, net.deciding x a outcome, .ok outcome⟩ :=
      ⟨hconstraints, fun _ hanswer hs => absurd (Except.ok.inj hanswer ▸ hs) hstatus⟩
    refine watches_tryValues_cons hnet.wellFormed hdecides hP ?_ ?_
    · intro condition calls
      rw [if_neg hnot, if_neg hnot]
      exact watches_pure _
    · intro condition
      rw [if_neg hnot]
      exact ends_pure.mpr ⟨_, condition, wanted, rfl, fun _ =>
        ih (hdecides.kind_eq.trans hkind) hnet hconstraints hbound condition wanted⟩
  | @descend x a rest depth net g g₁ g' name outcome below steps hdecides hstatus hbelow _
      ihBelow ihRest =>
    have hconsistent := Status.isConsistent_eq_true_iff.mpr hstatus
    have hkind₁ := hdecides.kind_eq.trans hkind
    have hnet' : (net.deciding x a outcome).Explorable kind :=
      hkind₁ ▸ hdecides.explorable (hkind ▸ hnet) hstatus
    have hP : Observation.Keeps kind first ⟨some x, net.deciding x a outcome, .ok outcome⟩ :=
      ⟨hconstraints, fun _ _ _ => ⟨hnet'.wellFormed, hnet'.keeps⟩⟩
    have hcount : (net.deciding x a outcome).unassigned.length + 1 = net.unassigned.length :=
      Network.length_unassigned_deciding hdecides.current.knows hdecides.free
    have hbound' : (net.deciding x a outcome).unassigned.length ≤ unassigned - 1 := by omega
    refine watches_tryValues_cons hnet.wellFormed hdecides hP ?_ ?_
    · intro condition calls
      rw [if_pos hconsistent, if_pos hconsistent]
      exact ihBelow hkind₁ hnet' hconstraints hbound' condition wanted calls
    · intro condition
      rw [if_pos hconsistent]
      refine (hbelow.ends hnet'.wellFormed hbound' condition wanted).mpr
        ⟨_, _, _, rfl, fun hexhausted calls => ?_⟩
      rw [made_eq_of_exhausted hexhausted, hbelow.finish_eq]
      exact ihRest (hbelow.kind_eq.trans hkind₁) hnet hconstraints hbound _ _ calls

theorem Searches.watches (h : Searches options net g steps g') (hkind : g.propagator.kind = kind)
    (hwf : net.WellFormed) (hfree : net.Free) (condition : τ) (wanted : Option Nat)
    (calls : List Observation) :
    Watches (Observation.Keeps kind net) (Search.fromRoot options) (Search.fromRoot options)
      (g.state net condition wanted) calls := by
  rw [Search.fromRoot, Search.fromRoot]
  cases h with
  | @failed outcome hbehaves hstatus =>
    have hnot := mt Status.isConsistent_eq_true_iff.mp hstatus
    have hP : Observation.Keeps kind net ⟨none, net.without outcome.removed, .ok outcome⟩ :=
      ⟨rfl, fun _ hanswer hs => absurd (Except.ok.inj hanswer ▸ hs) hstatus⟩
    refine (watches_propagate hbehaves hP).bind ((Search.ends_propagate hbehaves).mpr fun calls => ?_)
    dsimp only
    rw [if_neg hnot, if_neg hnot]
    refine (watches_note _).bind (Search.ends_note.mpr fun calls => ?_)
    exact watches_leave (g := g.failed net outcome) hwf hbehaves.records .exhausted
  | @explored outcome below g' hbehaves hstatus hexplored =>
    have hconsistent := Status.isConsistent_eq_true_iff.mpr hstatus
    have hnet := Progress.explorable_propagated hbehaves hwf hfree hstatus
    have hkind' : (g.propagated none net outcome).propagator.kind = kind :=
      (Progress.leads_propagated hbehaves).kind_eq.trans hkind
    rw [hkind'] at hnet
    have hP : Observation.Keeps kind net ⟨none, net.without outcome.removed, .ok outcome⟩ :=
      ⟨rfl, fun _ _ _ => ⟨hnet.wellFormed, hnet.keeps⟩⟩
    refine (watches_propagate hbehaves hP).bind ((Search.ends_propagate hbehaves).mpr fun calls => ?_)
    dsimp only
    rw [if_pos hconsistent, if_pos hconsistent]
    refine watches_poll.bind (Search.ends_poll.mpr fun calls => ?_)
    by_cases hstop : (Termination.shouldStop condition).1 = true
    · rw [if_pos hstop, if_pos hstop]
      exact watches_leave hwf hbehaves.records .stopped
    · rw [if_neg hstop, if_neg hstop]
      refine .get ?_
      rw [Search.network_watching, Progress.network_state]
      refine (hexplored.watches hkind' hnet rfl (Nat.le_refl _) _ wanted calls).bind ?_
      refine (hexplored.ends hnet.wellFormed (Nat.le_refl _) _ wanted).mpr fun calls => ?_
      exact watches_leave hwf hbehaves.records _

/-- A watched run is the run itself, with a record that counts its calls and has each of them leave
what the kind keeps up. -/
theorem Searches.watch_eq (h : Searches solver.options solver.network (solver.progress detail) steps g')
    (hkind : solver.propagator.kind = kind) (hwf : solver.network.WellFormed)
    (hfree : solver.network.Free) (condition : τ) (wanted : Option Nat) :
    ∃ run calls, solver.search condition detail wanted = .ok run ∧
      solver.watch condition detail wanted = .ok (run, calls) ∧
      run.solver.counters.propagatorCalls = solver.counters.propagatorCalls + calls.length ∧
      ∀ call ∈ calls, call.Keeps kind solver.network := by
  obtain ⟨made, hmade, hends⟩ := h.watches hkind hwf hfree condition wanted []
  have hstart : (⟨solver.network, solver.propagator, solver.generator, solver.counters,
      .empty detail, condition, wanted⟩ : Search τ Propagator) =
        (solver.progress detail).state solver.network condition wanted := rfl
  unfold Ends at hends
  cases hrun : (Search.fromRoot solver.options).run
      ((solver.progress detail).state solver.network condition wanted) with
  | error b t =>
    rw [hrun] at hends
    exact hends.elim
  | ok ending t =>
    rw [hrun] at hends
    obtain ⟨hwatched, hcount⟩ := hends
    refine ⟨⟨⟨t.network, solver.options, t.propagator, t.generator, t.counters⟩, t.condition,
      t.journal, ending⟩, made, ?_, ?_, hcount, hmade⟩
    · rw [Solver.search, hstart, hrun]
    · have hstart' : (⟨solver.network, ⟨solver.propagator, []⟩, solver.generator, solver.counters,
          .empty detail, condition, wanted⟩ : Search τ Watched) =
            ((solver.progress detail).state solver.network condition wanted).watching [] := rfl
      rw [Solver.watch, hstart', hwatched]
      rfl

/-- Whenever a call of arc consistency succeeds in a run, at the root or after a decision, every
constraint of the network is consistent, and an assigned variable has no value but its own. -/
theorem Solver.arc_consistency_maintained (hnet : net.Reachable) (hfree : net.Free)
    (hkind : options.propagator = .arc) (hsolver : (ofNetwork net options).RunsTo solver)
    (condition : τ) (detail : Option Level) (wanted : Option Nat) :
    ∃ run calls, solver.search condition detail wanted = .ok run ∧
      solver.watch condition detail wanted = .ok (run, calls) ∧
      run.solver.counters.propagatorCalls = solver.counters.propagatorCalls + calls.length ∧
      ∀ call ∈ calls, ∀ outcome, call.answer = .ok outcome → outcome.status = .consistent →
        call.network.constraints = net.constraints ∧
        (∀ id c, net.constraints.get? id = some c → call.network.Consistent c) ∧
        Arc.isConsistent call.network = .ok true ∧
        ∀ x b, call.network.assigned x = some b → ∀ a, call.network.Has x a ↔ a = b := by
  have hwf := hnet.wellFormed
  have hrests := hsolver.rests hwf
  obtain ⟨steps, g', hsearches, -⟩ := hrests.search_eq hwf detail
  have hnetwork := hrests.network_eq
  rw [← hrests.options_eq, ← hnetwork] at hsearches
  obtain ⟨run, calls, hrun, hwatch, hcount, hkeeps⟩ := hsearches.watch_eq
    (hrests.kind_eq.trans hkind) (hnetwork ▸ hwf) (hnetwork ▸ hfree) condition wanted
  refine ⟨run, calls, hrun, hwatch, hcount, fun call hcall outcome hanswer hstatus => ?_⟩
  obtain ⟨hconstraints, hkept⟩ := hkeeps call hcall
  obtain ⟨hwf', hconsistent, hassigned⟩ := hkept outcome hanswer hstatus
  rw [hnetwork] at hconstraints
  refine ⟨hconstraints, fun id c hc => hconsistent id c (hconstraints ▸ hc),
    (Arc.isConsistent_eq_ok_true_iff hwf').mpr hconsistent, fun x b hx a => hassigned x a b hx⟩

theorem Solver.arc_consistency_maintained_orderedPair :
    let net := Network.orderedPair
    let options : Options := ⟨.arc, .smallestDomain, .random, 7⟩
    let first := ofNetwork net options
    net.Reachable ∧ net.Free ∧ options.propagator = .arc ∧ ∃ verdict run,
      first.satisfy (Condition.decisions 1) none = .ok (verdict, run) ∧
      first.RunsTo run.solver ∧ ∃ run' calls,
        run.solver.search Condition.never none none = .ok run' ∧
        run.solver.watch Condition.never none none = .ok (run', calls) ∧
        run'.solver.counters.propagatorCalls =
          run.solver.counters.propagatorCalls + calls.length ∧
        ∀ call ∈ calls, ∀ outcome, call.answer = .ok outcome → outcome.status = .consistent →
          call.network.constraints = net.constraints ∧
          (∀ id c, net.constraints.get? id = some c → call.network.Consistent c) ∧
          Arc.isConsistent call.network = .ok true ∧
          ∀ x b, call.network.assigned x = some b → ∀ a, call.network.Has x a ↔ a = b := by
  intro net options first
  have hnet : net.Reachable := Network.reachable_orderedPair
  have hfree : net.Free := Network.free_orderedPair
  have hfirst : first.RunsTo first := .refl
  obtain ⟨steps, g', -, hsearch⟩ := (hfirst.rests hnet.wellFormed).search_eq hnet.wellFormed none
  obtain ⟨verdict, hrun, -⟩ := satisfy_eq_ok (hsearch (Condition.decisions 1) (some 1))
  have hsecond : first.RunsTo _ := .satisfy hfirst hrun
  exact ⟨hnet, hfree, rfl, verdict, _, hrun, hsecond,
    arc_consistency_maintained hnet hfree rfl hsecond Condition.never none none⟩

/-- The propagation at the root and both decisions leave one value to each variable. -/
example : ((Solver.ofNetwork .orderedPair {}).watch Condition.never none none).toOption.map
    (fun r => r.2.map fun call =>
      (call.trigger.map (·.index), call.network.vars.toList.map Variable.currentDomain)) =
    some [(none, [[0], [1]]), (some 0, [[0], [1]]), (some 1, [[0], [1]])] := by
  decide +kernel

end FiniteDomain
