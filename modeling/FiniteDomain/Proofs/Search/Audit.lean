import FiniteDomain.Proofs.Search.Observation
/-!
# Audits of searches

Whatever state it starts from, a search that answers does the same with its propagator watched, and
the record accounts for what it counted: the calls, and the values that they removed.
-/
namespace FiniteDomain

def Observation.removed (call : Observation) : List Removal :=
  match call.answer with
  | .ok outcome => outcome.removed
  | .error _ => []

def pruned (calls : List Observation) : Nat := (calls.map fun call => call.removed.length).sum

/-- The counters grew by the calls and by the values that these removed. -/
structure Counters.Meters (before after : Counters) (made : List Observation) : Prop where
  calls_eq : after.propagatorCalls = before.propagatorCalls + made.length
  pruned_eq : after.prunedValues = before.prunedValues + pruned made

variable {τ α β : Type}

/-- Wherever the second computation answers, the first does the same with calls added to the record,
and the counters meter these. -/
def Audits (m : SearchM τ Watched α) (m' : SearchM τ Propagator α) : Prop :=
  ∀ s calls a t, m'.run s = .ok a t → ∃ made,
    m.run (s.watching calls) = .ok a (t.watching (calls ++ made)) ∧
    s.counters.Meters t.counters made

variable {m : SearchM τ Watched α} {m' : SearchM τ Propagator α} {n₁ n₂ n₃ : Counters}
  {made made' : List Observation}

theorem pruned_append : pruned (made ++ made') = pruned made + pruned made' := by
  simp [pruned]

namespace Counters.Meters

theorem refl (n : Counters) : n.Meters n [] := ⟨rfl, rfl⟩

theorem trans (h : n₁.Meters n₂ made) (h' : n₂.Meters n₃ made') : n₁.Meters n₃ (made ++ made') where
  calls_eq := by rw [h'.calls_eq, h.calls_eq, List.length_append, Nat.add_assoc]
  pruned_eq := by rw [h'.pruned_eq, h.pruned_eq, pruned_append, Nat.add_assoc]

end Counters.Meters

theorem audits_of_quiet (h : ∀ s calls a t, m'.run s = .ok a t →
    m.run (s.watching calls) = .ok a (t.watching calls) ∧ s.counters.Meters t.counters []) :
    Audits m m' := by
  intro s calls a t hrun
  refine ⟨[], ?_⟩
  rw [List.append_nil]
  exact h s calls a t hrun

theorem audits_pure (a : α) : Audits (pure a : SearchM τ Watched α) (pure a) := by
  apply audits_of_quiet
  intro s calls b t hrun
  cases hrun
  exact ⟨rfl, .refl _⟩

theorem Audits.bind {f : α → SearchM τ Watched β} {f' : α → SearchM τ Propagator β}
    (h : Audits m m') (hf : ∀ a, Audits (f a) (f' a)) : Audits (m >>= f) (m' >>= f') := by
  intro s calls b u hrun
  rw [EStateM.run_bind] at hrun ⊢
  cases hfirst : m'.run s with
  | error e t =>
    rw [hfirst] at hrun
    cases hrun
  | ok a t =>
    rw [hfirst] at hrun
    obtain ⟨made, hwatched, hmeters⟩ := h s calls a t hfirst
    obtain ⟨made', hwatched', hmeters'⟩ := hf a t (calls ++ made) b u hrun
    refine ⟨made ++ made', ?_, hmeters.trans hmeters'⟩
    rw [hwatched, ← List.append_assoc]
    exact hwatched'

theorem Audits.get {f : Search τ Watched → SearchM τ Watched α}
    {f' : Search τ Propagator → SearchM τ Propagator α}
    (h : ∀ s calls, Audits (f (s.watching calls)) (f' s)) : Audits (get >>= f) (get >>= f') :=
  fun s calls a t hrun => h s calls s calls a t hrun

theorem Audits.ite {c : Prop} [Decidable c] {m₁ : SearchM τ Watched α}
    {m₁' : SearchM τ Propagator α} (h : Audits m m') (h₁ : Audits m₁ m₁') :
    Audits (if c then m else m₁) (if c then m' else m₁') := by
  split
  · exact h
  · exact h₁

namespace Search

theorem audits_demand (answer : Except Breach α) :
    Audits (demand answer : SearchM τ Watched α) (demand answer) := by
  cases answer with
  | ok a => exact audits_pure a
  | error b =>
    intro s calls a t hrun
    cases hrun

theorem audits_note (e : Event) : Audits (note e : SearchM τ Watched Unit) (note e) := by
  apply audits_of_quiet
  intro s calls a t hrun
  cases hrun
  exact ⟨rfl, .refl _⟩

theorem audits_setNetwork (net : Network) :
    Audits (setNetwork net : SearchM τ Watched Unit) (setNetwork net) := by
  apply audits_of_quiet
  intro s calls a t hrun
  cases hrun
  exact ⟨rfl, .refl _⟩

theorem audits_count {f : Counters → Counters} (h : ∀ n : Counters, n.Meters (f n) []) :
    Audits (count f : SearchM τ Watched Unit) (count f) := by
  apply audits_of_quiet
  intro s calls a t hrun
  cases hrun
  exact ⟨rfl, h s.counters⟩

theorem audits_restoreAll (removed : List Removal) :
    Audits (restoreAll removed : SearchM τ Watched Unit) (restoreAll removed) := by
  apply Audits.get
  intro s calls
  rw [network_watching]
  cases s.network.restoreAll removed with
  | ok net => exact audits_setNetwork net
  | error e =>
    obtain ⟨b, net⟩ := e
    apply (audits_setNetwork net).bind
    intro _ s calls a t hrun
    cases hrun

theorem audits_undo (x : VariableId) (removed : List Removal) :
    Audits (undo x removed : SearchM τ Watched Unit) (undo x removed) := by
  apply (audits_restoreAll removed).bind
  intro _
  apply Audits.get
  intro s calls
  exact (audits_demand _).bind audits_setNetwork

theorem audits_orderedValues (selection : ValueSelection) (x : VariableId) :
    Audits (orderedValues selection x : SearchM τ Watched (List Int)) (orderedValues selection x) := by
  apply audits_of_quiet
  intro s calls a t hrun
  rw [orderedValues, EStateM.run_bind, EStateM.run_get] at hrun ⊢
  change EStateM.run (demand (s.network.variableAt x) >>= _) _ = _ at hrun
  change EStateM.run (demand (s.network.variableAt x) >>= _) _ = _ ∧ _
  cases hv : s.network.variableAt x with
  | error b =>
    rw [hv] at hrun
    cases hrun
  | ok v =>
    rw [hv] at hrun
    cases hrun
    exact ⟨rfl, .refl _⟩

theorem audits_reportSolution (depth : Nat) :
    Audits (reportSolution depth : SearchM τ Watched Ending) (reportSolution depth) := by
  apply Audits.get
  intro s calls
  refine (audits_demand _).bind fun solution => ?_
  refine (audits_count ?_).bind fun _ => ?_
  · exact fun n => ⟨rfl, rfl⟩
  refine (audits_note _).bind fun _ => ?_
  apply audits_of_quiet
  intro s calls a t hrun
  cases hrun
  exact ⟨rfl, .refl _⟩

/-- The calls that a record shows are those that the counters meter. -/
theorem audits_propagate (trigger : Option VariableId) :
    Audits (propagate trigger : SearchM τ Watched Outcome) (propagate trigger) := by
  intro s calls outcome t hrun
  cases hanswer : (s.propagator.call trigger s.network s.journal).answer with
  | error b =>
    rw [propagate, EStateM.run_bind, EStateM.run_get] at hrun
    change EStateM.run (set _ >>= fun _ =>
      demand (s.propagator.call trigger s.network s.journal).answer >>= _) _ = _ at hrun
    rw [hanswer] at hrun
    cases hrun
  | ok outcome' =>
    rw [run_propagate rfl hanswer] at hrun
    cases hrun
    let call : Observation :=
      ⟨trigger, (s.propagator.call trigger s.network s.journal).network, .ok outcome⟩
    have hwatched : Propagation.call (s.watching calls).propagator trigger (s.watching calls).network
        (s.watching calls).journal = { s.propagator.call trigger s.network s.journal with
          own := ⟨(s.propagator.call trigger s.network s.journal).own, calls ++ [call]⟩ } := by
      simp only [call, ← hanswer]
      rfl
    refine ⟨[call], run_propagate hwatched hanswer, rfl, ?_⟩
    simp [pruned, Observation.removed, call]

theorem audits_thenUndo {m : SearchM τ Watched Ending} {m' : SearchM τ Propagator Ending}
    {after : Ending → SearchM τ Watched Ending} {after' : Ending → SearchM τ Propagator Ending}
    {x : VariableId} {removed : List Removal} (h : Audits m m')
    (hafter : ∀ ending, Audits (after ending) (after' ending)) :
    Audits (m >>= fun ending => undo x removed >>= fun _ => after ending)
      (m' >>= fun ending => undo x removed >>= fun _ => after' ending) :=
  h.bind fun ending => (audits_undo x removed).bind fun _ => hafter ending

variable [Termination τ]

theorem audits_poll : Audits (poll : SearchM τ Watched Bool) poll := by
  apply audits_of_quiet
  intro s calls a t hrun
  cases hrun
  exact ⟨rfl, .refl _⟩

theorem audits_makeDecision (x : VariableId) (value : Int) :
    Audits (makeDecision x value : SearchM τ Watched Outcome) (makeDecision x value) := by
  apply Audits.get
  intro s calls
  refine (audits_demand _).bind fun v => ?_
  refine (audits_note _).bind fun _ => ?_
  apply Audits.get
  intro s calls
  refine (audits_demand _).bind fun net => ?_
  refine (audits_setNetwork net).bind fun _ => ?_
  refine (audits_count ?_).bind fun _ => ?_
  · exact fun n => ⟨rfl, rfl⟩
  have htold : Audits
      (modify fun s => { s with condition := Termination.decisionMade s.condition } :
        SearchM τ Watched Unit)
      (modify fun s => { s with condition := Termination.decisionMade s.condition }) := by
    apply audits_of_quiet
    intro s calls a t hrun
    cases hrun
    exact ⟨rfl, .refl _⟩
  refine htold.bind fun _ => ?_
  refine (audits_propagate (some x)).bind fun outcome => ?_
  apply Audits.ite
  · exact audits_pure outcome
  · refine (audits_count ?_).bind fun _ => ?_
    · exact fun n => ⟨rfl, rfl⟩
    exact audits_pure outcome

theorem audits_tryValues {descend : SearchM τ Watched Ending}
    {descend' : SearchM τ Propagator Ending} (hdescend : Audits descend descend') (x : VariableId)
    (values : List Int) : Audits (tryValues descend x values) (tryValues descend' x values) := by
  induction values with
  | nil =>
    rw [tryValues, tryValues]
    refine (audits_count ?_).bind fun _ => ?_
    · exact fun n => ⟨rfl, rfl⟩
    refine audits_poll.bind fun stop => ?_
    exact audits_pure _
  | cons value rest ih =>
    refine (audits_makeDecision x value).bind fun outcome => ?_
    refine audits_poll.bind fun stop => ?_
    refine Audits.ite (audits_thenUndo (audits_pure Ending.stopped) ?_)
      (Audits.ite (audits_thenUndo hdescend ?_) (audits_thenUndo (audits_pure Ending.exhausted) ?_))
    all_goals
      intro ending
      cases ending with
      | exhausted => exact ih
      | stopped => exact audits_pure _
      | interrupted => exact audits_pure _

theorem audits_explore (options : Options) (unassigned depth : Nat) :
    Audits (explore options unassigned depth : SearchM τ Watched Ending)
      (explore options unassigned depth) := by
  induction unassigned generalizing depth with
  | zero => exact audits_reportSolution depth
  | succ unassigned ih =>
    apply Audits.get
    intro s calls
    rw [network_watching]
    cases options.variableSelection.select s.network with
    | none => exact audits_reportSolution depth
    | some x =>
      refine (audits_orderedValues _ x).bind fun values => ?_
      refine (audits_count ?_).bind fun _ => ?_
      · exact fun n => ⟨rfl, rfl⟩
      exact audits_tryValues (ih (depth + 1)) x values

theorem audits_fromRoot (options : Options) :
    Audits (fromRoot options : SearchM τ Watched Ending) (fromRoot options) := by
  refine (audits_propagate none).bind fun root => ?_
  have hleave (ending : Ending) : Audits
      (do
        restoreAll root.removed
        note (.searchEnded ending)
        return ending : SearchM τ Watched Ending)
      (do
        restoreAll root.removed
        note (.searchEnded ending)
        return ending) := by
    refine (audits_restoreAll _).bind fun _ => ?_
    refine (audits_note _).bind fun _ => ?_
    exact audits_pure ending
  apply Audits.ite
  · refine audits_poll.bind fun stop => ?_
    apply Audits.ite
    · exact hleave .stopped
    · apply Audits.get
      intro s calls
      exact (audits_explore options _ 0).bind hleave
  · exact (audits_note _).bind fun _ => hleave .exhausted

end Search

/-- Every run that answers has a record of its calls, which accounts for what it counted. -/
theorem Solver.exists_watch [Termination τ] {solver : Solver} {condition : τ}
    {detail : Option Level} {wanted : Option Nat} {run : Run τ}
    (h : solver.search condition detail wanted = .ok run) :
    ∃ calls, solver.watch condition detail wanted = .ok (run, calls) ∧
      solver.counters.Meters run.solver.counters calls := by
  let start : Search τ Propagator := ⟨solver.network, solver.propagator, solver.generator,
    solver.counters, .empty detail, condition, wanted⟩
  cases hrun : (Search.fromRoot solver.options).run start with
  | error b t =>
    rw [search, hrun] at h
    cases h
  | ok ending t =>
    rw [search, hrun] at h
    cases h
    obtain ⟨made, hwatched, hmeters⟩ := Search.audits_fromRoot solver.options start [] ending t hrun
    refine ⟨made, ?_, hmeters⟩
    have hstart : (⟨solver.network, ⟨solver.propagator, []⟩, solver.generator, solver.counters,
        .empty detail, condition, wanted⟩ : Search τ Watched) = start.watching [] := rfl
    rw [watch, hstart, hwatched]
    rfl

end FiniteDomain
