import FiniteDomain.Proofs.Search.Solutions
/-!
# Observed searches

A propagator that records its calls, for a search to run on in the place of the one that it wraps.
The search goes the same way, and the record shows every network that propagation left on it.
-/
namespace FiniteDomain

/-- A call of a propagator: what it looked at, the network it left and its answer. -/
structure Observation where
  trigger : Option VariableId
  network : Network
  answer : Except Breach Outcome

structure Watched where
  propagator : Propagator
  calls : List Observation

def Watched.call (w : Watched) (trigger : Option VariableId) (net : Network) (j : Journal) :
    Call Watched :=
  let r := w.propagator.call trigger net j
  { r with own := ⟨r.own, w.calls ++ [⟨trigger, r.network, r.answer⟩]⟩ }

instance : Propagation Watched := ⟨Watched.call⟩

variable {τ α β : Type}

def Search.watching (s : Search τ Propagator) (calls : List Observation) : Search τ Watched :=
  { s with propagator := ⟨s.propagator, calls⟩ }

/-- From here on both computations do the same, the first with calls added to the record of which
`P` holds, and as many as are counted. -/
def Watches (P : Observation → Prop) (m : SearchM τ Watched α) (m' : SearchM τ Propagator α)
    (s : Search τ Propagator) (calls : List Observation) : Prop :=
  ∃ made, (∀ call ∈ made, P call) ∧
    Ends m' s
      (fun a t => m.run (s.watching calls) = .ok a (t.watching (calls ++ made)) ∧
        t.counters.propagatorCalls = s.counters.propagatorCalls + made.length)
      fun _ _ => False

/-- A search by the solver with its propagator watched: what it leaves, and the record. -/
def Solver.watch [Termination τ] (solver : Solver) (condition : τ) (detail : Option Level)
    (wanted : Option Nat) : Except Breach (Run τ × List Observation) :=
  let start : Search τ Watched := ⟨solver.network, ⟨solver.propagator, []⟩, solver.generator,
    solver.counters, .empty detail, condition, wanted⟩
  match (Search.fromRoot solver.options).run start with
  | .error b _ => .error b
  | .ok ending s =>
    .ok (⟨⟨s.network, solver.options, s.propagator.propagator, s.generator, s.counters⟩,
      s.condition, s.journal, ending⟩, s.propagator.calls)

variable {P : Observation → Prop} {m : SearchM τ Watched α} {m' : SearchM τ Propagator α}
  {s : Search τ Propagator} {calls : List Observation}

@[simp] theorem Search.network_watching (s : Search τ Propagator) (calls : List Observation) :
    (s.watching calls).network = s.network :=
  rfl

theorem watches_pure (a : α) : Watches P (pure a) (pure a) s calls :=
  ⟨[], List.forall_mem_nil P, congrArg (fun calls => EStateM.Result.ok a (s.watching calls))
    (List.append_nil calls).symm, rfl⟩

theorem Watches.bind {f : α → SearchM τ Watched β} {f' : α → SearchM τ Propagator β}
    (h : Watches P m m' s calls)
    (hf : Ends m' s (fun a t => ∀ calls, Watches P (f a) (f' a) t calls) fun _ _ => True) :
    Watches P (m >>= f) (m' >>= f') s calls := by
  obtain ⟨made, hmade, h⟩ := h
  unfold Ends at h hf
  cases hrun : m'.run s with
  | error b t =>
    rw [hrun] at h
    exact h.elim
  | ok a t =>
    rw [hrun] at h hf
    obtain ⟨hwatched, hcount⟩ := h
    obtain ⟨made', hmade', hrest⟩ := hf (calls ++ made)
    refine ⟨made ++ made', List.forall_mem_append.mpr ⟨hmade, hmade'⟩, ?_⟩
    have hends : Ends m' s (fun a t => Ends (f' a) t
        (fun b u => (m >>= f).run (s.watching calls) = .ok b (u.watching (calls ++ (made ++ made'))) ∧
          u.counters.propagatorCalls = s.counters.propagatorCalls + (made ++ made').length)
        fun _ _ => False) fun _ _ => False := by
      unfold Ends
      rw [hrun]
      refine hrest.mono (fun b u hu => ?_) fun _ _ h => h
      obtain ⟨hwatched', hcount'⟩ := hu
      constructor
      · rw [EStateM.run_bind, hwatched, ← List.append_assoc]
        exact hwatched'
      · rw [hcount', hcount, List.length_append, Nat.add_assoc]
    exact ends_bind.mpr hends

theorem Watches.get {f : Search τ Watched → SearchM τ Watched α}
    {f' : Search τ Propagator → SearchM τ Propagator α}
    (h : Watches P (f (s.watching calls)) (f' s) s calls) :
    Watches P (get >>= f) (get >>= f') s calls :=
  h

theorem watches_of_quiet
    (h : Ends m' s (fun a t => m.run (s.watching calls) = .ok a (t.watching calls) ∧
      t.counters.propagatorCalls = s.counters.propagatorCalls) fun _ _ => False) :
    Watches P m m' s calls := by
  refine ⟨[], List.forall_mem_nil P, ?_⟩
  rw [List.append_nil]
  exact h

section
variable {net net' : Network} {g : Progress} {condition : τ} {wanted : Option Nat} {x : VariableId}
  {a : Int} {name : String} {outcome : Outcome} {trigger : Option VariableId}
  {removed : List Removal}

theorem watches_demand {answer : Except Breach α} {b : α} (h : answer = .ok b) :
    Watches P (Search.demand answer) (Search.demand answer) s calls := by
  rw [h]
  exact watches_pure b

theorem watches_note (e : Event) : Watches P (Search.note e) (Search.note e) s calls :=
  watches_of_quiet ⟨rfl, rfl⟩

theorem watches_setNetwork (net : Network) :
    Watches P (Search.setNetwork net) (Search.setNetwork net) s calls :=
  watches_of_quiet ⟨rfl, rfl⟩

theorem watches_count {f : Counters → Counters}
    (h : (f s.counters).propagatorCalls = s.counters.propagatorCalls) :
    Watches P (Search.count f) (Search.count f) s calls :=
  watches_of_quiet ⟨rfl, h⟩

theorem watches_decisionMade [Termination τ] :
    Watches P (modify fun s => { s with condition := Termination.decisionMade s.condition })
      (modify fun s => { s with condition := Termination.decisionMade s.condition }) s calls :=
  watches_of_quiet ⟨rfl, rfl⟩

theorem watches_poll [Termination τ] : Watches P Search.poll Search.poll s calls :=
  watches_of_quiet ⟨rfl, rfl⟩

theorem watches_restoreAll (h : s.network.restoreAll removed = .ok net) :
    Watches P (Search.restoreAll removed) (Search.restoreAll removed) s calls := by
  refine .get ?_
  rw [Search.network_watching, h]
  exact watches_setNetwork net

theorem watches_undo (hwf : net.WellFormed) (hx : net.Knows x)
    (hrec : (net.assigning x a).Records outcome.removed) :
    Watches P (Search.undo x outcome.removed) (Search.undo x outcome.removed)
      (g.state (net.deciding x a outcome) condition wanted) calls := by
  have hrestored : (net.deciding x a outcome).restoreAll outcome.removed =
      .ok (net.assigning x a) := Network.restoreAll_without (hwf.assigning x a) hrec (.refl _)
  refine (watches_restoreAll hrestored).bind ((Search.ends_restoreAll (hwf.assigning x a) hrec).mpr ?_)
  intro calls
  refine .get ?_
  refine (watches_demand (Network.unassign_assigning hx)).bind ?_
  refine (Search.ends_demand (Network.unassign_assigning hx)).mpr fun calls => ?_
  exact watches_setNetwork net

theorem watches_leave {removed : List Removal} (hwf : net.WellFormed)
    (hrec : net.Records removed) (ending : Ending) :
    Watches P
      (do
        Search.restoreAll removed
        Search.note (.searchEnded ending)
        pure ending)
      (do
        Search.restoreAll removed
        Search.note (.searchEnded ending)
        pure ending)
      (g.state (net.without removed) condition wanted) calls := by
  have hrestored : (net.without removed).restoreAll removed = .ok net :=
    Network.restoreAll_without hwf hrec (.refl removed)
  refine (watches_restoreAll hrestored).bind ((Search.ends_restoreAll hwf hrec).mpr fun calls => ?_)
  refine (watches_note _).bind (Search.ends_note.mpr fun calls => ?_)
  exact watches_pure ending

theorem watches_reportSolution {depth : Nat} {sol : Solution}
    (h : Search.currentSolution net = .ok sol) :
    Watches P (Search.reportSolution depth) (Search.reportSolution depth)
      (g.state net condition wanted) calls := by
  refine .get ?_
  refine (watches_demand h).bind ((Search.ends_demand h).mpr fun calls => ?_)
  exact watches_of_quiet ⟨rfl, rfl⟩

theorem watches_orderedValues {selection : ValueSelection} {v : Variable}
    (hv : net.vars.get? x = some v) :
    Watches P (Search.orderedValues selection x) (Search.orderedValues selection x)
      (g.state net condition wanted) calls := by
  have hfetch : net.variableAt x = .ok v := Store.fetch_of_get? hv
  refine watches_of_quiet ((Search.ends_orderedValues hv rfl).mpr ⟨?_, rfl⟩)
  rw [Search.orderedValues, EStateM.run_bind, EStateM.run_get]
  change EStateM.run (Search.demand (net.variableAt x) >>= _) _ = _
  rw [hfetch]
  rfl

theorem run_propagate {π : Type} [Propagation π] {s : Search τ π} {r : Call π}
    (hr : Propagation.call s.propagator trigger s.network s.journal = r)
    (h : r.answer = .ok outcome) :
    (Search.propagate trigger).run s = .ok outcome { s with
      network := r.network
      propagator := r.own
      journal := r.journal
      counters := { s.counters with
        propagatorCalls := s.counters.propagatorCalls + 1
        prunedValues := s.counters.prunedValues + outcome.removed.length } } := by
  subst hr
  rw [Search.propagate, EStateM.run_bind, EStateM.run_get]
  change EStateM.run (set _ >>= fun _ => Search.demand
    (Propagation.call s.propagator trigger s.network s.journal).answer >>= _) _ = _
  rw [h]
  rfl

/-- A call is recorded with the network that it leaves. -/
theorem watches_propagate (h : g.propagator.Behaves trigger net g.journal outcome)
    (hP : P ⟨trigger, net.without outcome.removed, .ok outcome⟩) :
    Watches P (Search.propagate trigger) (Search.propagate trigger)
      (g.state net condition wanted) calls := by
  refine ⟨[⟨trigger, net.without outcome.removed, .ok outcome⟩], List.forall_mem_singleton.mpr hP, ?_⟩
  refine (Search.ends_propagate h).mpr ⟨?_, rfl⟩
  let watched := (g.state net condition wanted).watching calls
  have hwatched : Propagation.call watched.propagator trigger watched.network watched.journal =
      ⟨net.without outcome.removed, (g.propagator.call trigger net g.journal).journal,
        ⟨(g.propagator.call trigger net g.journal).own,
          calls ++ [⟨trigger, net.without outcome.removed, .ok outcome⟩]⟩, .ok outcome⟩ := by
    rw [← h.network_eq, ← h.answer_eq]
    rfl
  exact run_propagate hwatched rfl

theorem watches_makeDecision [Termination τ] (hdecides : Decides net g x a name outcome)
    (hP : P ⟨some x, net.deciding x a outcome, .ok outcome⟩) :
    Watches P (Search.makeDecision x a) (Search.makeDecision x a) (g.state net condition wanted)
      calls := by
  obtain ⟨v, hv, rfl⟩ := hdecides.named
  have hassign : net.assign x a = .ok (net.assigning x a) :=
    Network.assign_eq_ok hdecides.current
  have hfetch : net.variableAt x = .ok v := Store.fetch_of_get? hv
  refine .get ?_
  refine (watches_demand hfetch).bind ((Search.ends_demand hfetch).mpr fun calls => ?_)
  refine (watches_note _).bind (Search.ends_note.mpr fun calls => ?_)
  refine .get ?_
  refine (watches_demand hassign).bind ((Search.ends_demand hassign).mpr fun calls => ?_)
  refine (watches_setNetwork _).bind (Search.ends_setNetwork.mpr fun calls => ?_)
  refine (watches_count rfl).bind (Search.ends_count.mpr fun calls => ?_)
  refine watches_decisionMade.bind (ends_modify.mpr fun calls => ?_)
  refine (watches_propagate hdecides.behaves hP).bind
    ((Search.ends_propagate hdecides.behaves).mpr fun calls => ?_)
  dsimp only
  by_cases hstatus : outcome.status.isConsistent = true
  · rw [if_pos hstatus, if_pos hstatus]
    exact watches_pure outcome
  · rw [if_neg hstatus, if_neg hstatus]
    refine (watches_count rfl).bind (Search.ends_count.mpr fun calls => ?_)
    exact watches_pure outcome

end

end FiniteDomain
