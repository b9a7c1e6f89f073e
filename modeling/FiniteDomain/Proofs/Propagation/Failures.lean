import FiniteDomain.Proofs.Network.Session
import FiniteDomain.Proofs.Propagation.Anchored
/-!
# Counted failures

A propagator lives through calls on any networks, which change between them. The check counts every
violation that it answers. Arc consistency counts every domain that it empties from its queue, but
not one that the start of a call empties: that happens exactly where the value assigned to the
trigger is not current and another one is.
-/
namespace FiniteDomain

def Status.isEmptyDomain : Status → Bool
  | inconsistent (.emptyDomain _) => true
  | _ => false

def Status.isViolation : Status → Bool
  | inconsistent (.constraintViolated _) => true
  | _ => false

/-- The trigger has values in its domain, but not the one assigned to it. -/
def Network.adrift (net : Network) (trigger : Option VariableId) : Bool :=
  (trigger.bind net.vars.get?).any fun v =>
    v.assignedValue.any fun b => !v.contains b && !v.currentDomain.isEmpty

namespace Propagator

def wipeouts : Propagator → Nat
  | arc s => s.counters.wipeouts
  | _ => 0

def violations : Propagator → Nat
  | check n => n.violations
  | _ => 0

end Propagator

/-- Networks under numbers, and a propagator of each kind that is called on all of them. -/
structure Bench where
  nets : Nat → Network
  propagators : PropagatorKind → Propagator
  journal : Journal

namespace Bench

inductive Act where
  | request (i : Nat) (r : Network.Request)
  | propagate (i : Nat) (kind : PropagatorKind) (trigger : Option VariableId)

structure Entry where
  kind : PropagatorKind
  net : Network
  trigger : Option VariableId
  answer : Except Breach Outcome

namespace Entry

def ended (e : Entry) (kind : PropagatorKind) (test : Status → Bool) : Bool :=
  e.kind = kind && e.answer.toOption.any (test ·.status)

/-- Arc consistency was called at a trigger without its assigned value. -/
def adrift (e : Entry) : Bool := e.kind = .arc && e.net.adrift e.trigger

/-- What the call has added to the counters of `p`, which it has left as `q`. -/
structure Counted (e : Entry) (p q : Propagator) : Prop where
  fails : e.adrift = true → e.ended .arc Status.isEmptyDomain = true
  wipeouts_eq : q.wipeouts + (if e.adrift then 1 else 0) =
    p.wipeouts + if e.ended .arc Status.isEmptyDomain then 1 else 0
  violations_eq : q.violations =
    p.violations + if e.ended .check Status.isViolation then 1 else 0

end Entry

def new (detail : Option Level) : Bench := ⟨fun _ => .empty, .ofKind, .empty detail⟩

def perform (b : Bench) : Act → List Entry × Bench
  | .request i r => ([], { b with nets := Function.update b.nets i (r.exchange (b.nets i)).2 })
  | .propagate i kind trigger =>
    let r := (b.propagators kind).call trigger (b.nets i) b.journal
    ([⟨kind, b.nets i, trigger, r.answer⟩],
      ⟨Function.update b.nets i r.network, Function.update b.propagators kind r.own, r.journal⟩)

/-- Performs one act after another, whatever becomes of each. -/
def history (b : Bench) : List Act → List Entry × Bench
  | [] => ([], b)
  | act :: acts =>
    let done := b.perform act
    let rest := done.2.history acts
    (done.1 ++ rest.1, rest.2)

end Bench

variable {p : Propagator} {net : Network} {trigger : Option VariableId} {j : Journal}

theorem Network.adrift_iff : net.adrift trigger = true ↔
    ∃ x b, trigger = some x ∧ net.assigned x = some b ∧ ¬net.Has x b ∧ ∃ a, net.Has x a := by
  have hany (v : Variable) : (!v.currentDomain.isEmpty) = true ↔ ∃ a, v.contains a = true := by
    simp [List.eq_nil_iff_forall_not_mem, Variable.mem_currentDomain]
  simp only [adrift, Option.any_eq_true, Option.bind_eq_some_iff, Bool.and_eq_true, hany]
  constructor
  · intro h
    obtain ⟨v, ⟨x, hx, hv⟩, b, hb, hnot, a, ha⟩ := h
    refine ⟨x, b, hx, ?_, ?_, a, v, hv, ha⟩
    · rw [assigned, hv, Option.bind_some, hb]
    · intro hhas
      obtain ⟨w, hw, hcontains⟩ := hhas
      obtain rfl : v = w := Option.some.inj (hv.symm.trans hw)
      simp [hcontains] at hnot
  · intro h
    obtain ⟨x, b, hx, hb, hnot, a, v, hv, ha⟩ := h
    rw [assigned, hv, Option.bind_some] at hb
    refine ⟨v, ⟨x, hx, hv⟩, b, hb, ?_, a, ha⟩
    rw [Bool.not_eq_true', Bool.eq_false_iff]
    exact fun hcontains => hnot ⟨v, hv, hcontains⟩

theorem Network.mayTrigger_of_adrift (h : net.adrift trigger = true) : net.MayTrigger trigger := by
  obtain ⟨x, b, hx, hb, -⟩ := adrift_iff.mp h
  intro y hy
  obtain rfl : x = y := Option.some.inj (hx.symm.trans hy)
  exact ⟨b, hb⟩

theorem Network.Anchored.adrift_eq_false (h : net.Anchored) (trigger : Option VariableId) :
    net.adrift trigger = false := by
  rw [Bool.eq_false_iff]
  intro hadrift
  obtain ⟨x, b, -, hb, hnot, -⟩ := adrift_iff.mp hadrift
  exact hnot (h x b hb)

namespace Arc

variable {told : List Solution} {before : ArcCounters} {fresh : Nat} {current : Option ConstraintId}
  {q : Pass ArcState} {x : VariableId}

theorem Working.adrift_eq_false (h : Working net told trigger before fresh current q) :
    net.adrift trigger = false := by
  rw [Bool.eq_false_iff]
  intro hadrift
  obtain ⟨x, b, hx, hb, hnot, a, ha⟩ := Network.adrift_iff.mp hadrift
  obtain ⟨d, hd⟩ := h.alive ha
  obtain rfl : d = b := h.narrowed hx ((h.assigned_eq x).trans hb) hd
  exact hnot (h.has_iff.mp hd).1

theorem ends_pass_of_adrift {state : ArcState} (hwf : net.WellFormed)
    (hready : (Propagator.arc state).Ready) (htrigger : net.MayTrigger trigger)
    (hadrift : net.adrift trigger = true) :
    Ends (pass trigger) ⟨net, #[], j, state⟩ (fun _ _ => False)
      fun h q => ∃ x, h = .inconsistent (.emptyDomain x) ∧ q.own = state := by
  have hstart := ends_start (p := ⟨net, #[], j, state⟩) hwf rfl
    (Pass.tracks_start hwf j state _) (by simp) hready.1 hready.2 htrigger
  rw [pass, ends_bind, ends_get, if_pos (Queue.isEmpty_eq_true_iff.mpr hready.2)]
  refine ends_bind.mpr (hstart.mono ?_ ?_)
  · intro _ q hq
    have hnot := hq.adrift_eq_false
    rw [hadrift] at hnot
    cases hnot
  · intro h q hq
    obtain ⟨x, rfl, -, hown, -⟩ := hq
    exact ⟨x, rfl, hown⟩

/-- A call that empties a domain counts it, unless the trigger was adrift. -/
theorem ends_pass_wipeouts {state : ArcState} (hwf : net.WellFormed)
    (hready : (Propagator.arc state).Ready) (htrigger : net.MayTrigger trigger) :
    Ends (pass trigger) ⟨net, #[], j, state⟩
      (fun _ q => net.adrift trigger = false ∧ q.own.counters.wipeouts = state.counters.wipeouts)
      fun h q => ∃ x, h = .inconsistent (.emptyDomain x) ∧
        q.own.counters.wipeouts + (if net.adrift trigger then 1 else 0) =
          state.counters.wipeouts + 1 := by
  by_cases hadrift : net.adrift trigger = true
  · refine (ends_pass_of_adrift hwf hready htrigger hadrift).mono (fun _ _ h => h.elim) ?_
    intro h q hq
    obtain ⟨x, rfl, hown⟩ := hq
    exact ⟨x, rfl, by rw [hown, if_pos hadrift]⟩
  · have hends := ends_pass (p := ⟨net, #[], j, state⟩) hwf rfl
      (Pass.tracks_start hwf j state _) (by simp) hready.1 hready.2 htrigger
    refine hends.mono ?_ ?_
    · intro _ q hq
      exact ⟨hq.1.adrift_eq_false, hq.1.wipeouts_eq⟩
    · intro h q hq
      obtain ⟨x, rfl, hwiped⟩ := hq
      refine ⟨x, rfl, ?_⟩
      rw [if_neg hadrift]
      refine hwiped.wipeouts_eq.resolve_right fun hstart => hadrift ?_
      obtain ⟨-, hx, b, hb, hnot⟩ := hstart
      obtain ⟨rs, a, hlast⟩ := hwiped.last
      have ha : net.Has x a := hwiped.records.current ⟨x, a⟩ (by simp [hlast])
      exact Network.adrift_iff.mpr ⟨x, b, hx, hb, hnot, a, ha⟩

end Arc

namespace Propagator

theorem check_call_counts (hwf : net.WellFormed) (hknown : ∀ x, trigger = some x → net.Knows x)
    (counters : CheckCounters) (j : Journal) :
    let r := (check counters).call trigger net j
    ∃ outcome, r.answer = .ok outcome ∧
      r.own.violations = counters.violations + if outcome.status.isViolation then 1 else 0 := by
  have hends := Check.ends_pass (p := ⟨net, #[], j, counters⟩) hwf rfl trigger hknown
  refine PassM.call_status (check counters).name trigger
    (P := fun status own => own.violations = counters.violations +
      if status.isViolation then 1 else 0) (hends.mono ?_ ?_)
  · intro _ q h
    obtain ⟨-, own, rfl, hown⟩ := h
    exact hown
  · intro h q hq
    obtain ⟨⟨x, id, c, -, -, -, rfl, -⟩, own, rfl, hown⟩ := hq
    exact ⟨_, rfl, hown⟩

theorem arc_call_counts {state : ArcState} (hwf : net.WellFormed) (hready : (arc state).Ready)
    (htrigger : net.MayTrigger trigger) (j : Journal) :
    let r := (arc state).call trigger net j
    ∃ outcome, r.answer = .ok outcome ∧
      (net.adrift trigger = true → outcome.status.isEmptyDomain = true) ∧
      r.own.wipeouts + (if net.adrift trigger then 1 else 0) =
        state.counters.wipeouts + if outcome.status.isEmptyDomain then 1 else 0 := by
  have hends := Arc.ends_pass_wipeouts (j := j) hwf hready htrigger
  refine PassM.call_status (arc state).name trigger
    (P := fun status own => (net.adrift trigger = true → status.isEmptyDomain = true) ∧
      own.counters.wipeouts + (if net.adrift trigger then 1 else 0) =
        state.counters.wipeouts + if status.isEmptyDomain then 1 else 0) (hends.mono ?_ ?_)
  · intro _ q h
    obtain ⟨hadrift, hown⟩ := h
    simp [hadrift, hown, Status.isEmptyDomain]
  · intro h q hq
    obtain ⟨x, rfl, hown⟩ := hq
    exact ⟨_, rfl, fun _ => rfl, hown⟩

/-- What a call adds to the counters shows in its entry. -/
theorem call_counts {kind : PropagatorKind} (hp : p.Called) (hkind : p.kind = kind)
    (hnet : net.Reachable) (trigger : Option VariableId) (j : Journal) :
    let r := p.call trigger net j
    Bench.Entry.Counted ⟨kind, net, trigger, r.answer⟩ p r.own := by
  intro r
  subst hkind
  let e : Bench.Entry := ⟨p.kind, net, trigger, r.answer⟩
  change e.Counted p r.own
  have hwf := hnet.wellFormed
  by_cases hadmits : p.kind.Admits net trigger
  · cases p with
    | check counters =>
      obtain ⟨outcome, hanswer, hown⟩ := check_call_counts hwf hadmits counters j
      have he : e = ⟨.check, net, trigger, .ok outcome⟩ := by rw [← hanswer]; rfl
      rw [he]
      exact ⟨fun h => (nomatch h), rfl, hown⟩
    | forward counters => exact ⟨fun h => (nomatch h), rfl, rfl⟩
    | arc state =>
      obtain ⟨outcome, hanswer, hadrift, hown⟩ := arc_call_counts hwf hp.ready hadmits j
      have he : e = ⟨.arc, net, trigger, .ok outcome⟩ := by rw [← hanswer]; rfl
      rw [he]
      exact ⟨hadrift, hown, rfl⟩
  · obtain ⟨⟨b, hb⟩, hown, -⟩ := call_refused hwf hp.ready hadmits j
    have hadrift : e.adrift = false := by
      rw [Bool.eq_false_iff]
      intro h
      obtain ⟨hkind, h⟩ := Bool.and_eq_true_iff.mp h
      have hkind : p.kind = .arc := of_decide_eq_true hkind
      apply hadmits
      rw [hkind]
      exact Network.mayTrigger_of_adrift h
    have hended (kind : PropagatorKind) (test : Status → Bool) : e.ended kind test = false := by
      simp [e, r, Bench.Entry.ended, hb, Except.toOption]
    have hown : r.own = p := hown
    rw [hown]
    constructor <;> simp [hadrift, hended]

theorem reachable_call (hp : p.Called) (hnet : net.Reachable) (trigger : Option VariableId)
    (j : Journal) : (p.call trigger net j).network.Reachable := by
  by_cases hadmits : p.kind.Admits net trigger
  · obtain ⟨outcome, h⟩ := call_behaves_of_admits hnet.wellFormed hp.ready hadmits j
    rw [h.network_eq]
    exact hnet.without h.records
  · rw [(call_refused hnet.wellFormed hp.ready hadmits j).2.2]
    exact hnet

theorem kind_call (p : Propagator) (trigger : Option VariableId) (net : Network) (j : Journal) :
    (p.call trigger net j).own.kind = p.kind := by
  cases p <;> rfl

end Propagator

namespace Bench
variable {b : Bench} {log : List Entry}

/-- The counters are what the entries add up to. -/
structure Tallied (log : List Entry) (b : Bench) : Prop where
  reachable : ∀ i, (b.nets i).Reachable
  called : ∀ kind, (b.propagators kind).Called
  kind_eq : ∀ kind, (b.propagators kind).kind = kind
  answered : ∀ e ∈ log, e.net.MayTrigger e.trigger → ∃ outcome, e.answer = .ok outcome
  adrift : ∀ e ∈ log, e.adrift = true → e.ended .arc Status.isEmptyDomain = true
  wipeouts_eq : (b.propagators .arc).wipeouts + log.countP Entry.adrift =
    log.countP (·.ended .arc Status.isEmptyDomain)
  violations_eq : (b.propagators .check).violations =
    log.countP (·.ended .check Status.isViolation)

theorem tallied_new (detail : Option Level) : Tallied [] (new detail) where
  reachable _ := .empty
  called := .ofKind
  kind_eq kind := by cases kind <;> rfl
  answered e he := by cases he
  adrift e he := by cases he
  wipeouts_eq := rfl
  violations_eq := rfl

theorem Tallied.request (h : Tallied log b) (i : Nat) (r : Network.Request) :
    Tallied log { b with nets := Function.update b.nets i (r.exchange (b.nets i)).2 } where
  reachable := (Function.forall_update_iff _ fun _ => Network.Reachable).mpr
    ⟨(h.reachable i).exchange r, fun k _ => h.reachable k⟩
  called := h.called
  kind_eq := h.kind_eq
  answered := h.answered
  adrift := h.adrift
  wipeouts_eq := h.wipeouts_eq
  violations_eq := h.violations_eq

theorem Tallied.propagate (h : Tallied log b) (i : Nat) (kind : PropagatorKind)
    (trigger : Option VariableId) :
    let r := (b.propagators kind).call trigger (b.nets i) b.journal
    Tallied (log ++ [⟨kind, b.nets i, trigger, r.answer⟩])
      ⟨Function.update b.nets i r.network, Function.update b.propagators kind r.own,
        r.journal⟩ := by
  intro r
  let e : Entry := ⟨kind, b.nets i, trigger, r.answer⟩
  have hcounted : e.Counted (b.propagators kind) r.own :=
    Propagator.call_counts (h.called kind) (h.kind_eq kind) (h.reachable i) trigger b.journal
  change Tallied (log ++ [e]) _
  refine ⟨?_, ?_, ?_, ?_, ?_, ?_, ?_⟩
  · exact (Function.forall_update_iff _ fun _ => Network.Reachable).mpr
      ⟨Propagator.reachable_call (h.called kind) (h.reachable i) _ _, fun k _ => h.reachable k⟩
  · exact (Function.forall_update_iff _ fun _ => Propagator.Called).mpr
      ⟨.call _ _ (h.called kind) (h.reachable i), fun k _ => h.called k⟩
  · exact (Function.forall_update_iff _ fun k (p : Propagator) => p.kind = k).mpr
      ⟨(Propagator.kind_call ..).trans (h.kind_eq kind), fun k _ => h.kind_eq k⟩
  · intro d hd
    rcases List.mem_append.mp hd with hd | hd
    · exact h.answered d hd
    · rw [List.mem_singleton.mp hd]
      intro htrigger
      obtain ⟨outcome, hbehaves⟩ := Propagator.call_behaves (h.reachable i).wellFormed htrigger
        (h.called kind).ready b.journal
      exact ⟨outcome, hbehaves.answer_eq⟩
  · intro d hd
    rcases List.mem_append.mp hd with hd | hd
    · exact h.adrift d hd
    · rw [List.mem_singleton.mp hd]
      exact hcounted.fails
  · have hold := h.wipeouts_eq
    rw [List.countP_append, List.countP_append, List.countP_singleton, List.countP_singleton]
    cases kind with
    | check | forward => exact hold
    | arc =>
      have hnew := hcounted.wipeouts_eq
      simp only [Function.update_self]
      omega
  · have hold := h.violations_eq
    rw [List.countP_append, List.countP_singleton]
    cases kind with
    | check =>
      have hnew := hcounted.violations_eq
      simp only [Function.update_self]
      omega
    | forward | arc => exact hold

theorem Tallied.history (h : Tallied log b) (acts : List Act) :
    Tallied (log ++ (b.history acts).1) (b.history acts).2 := by
  induction acts generalizing log b with
  | nil =>
    rw [Bench.history, List.append_nil]
    exact h
  | cons act acts ih =>
    rw [Bench.history, ← List.append_assoc]
    apply ih
    cases act with
    | request i r =>
      rw [perform, List.append_nil]
      exact h.request i r
    | propagate i kind trigger => exact h.propagate i kind trigger

/-- Over any changes of any networks and any calls on them, the check has counted the violations it
found, and arc consistency the domains it emptied, apart from those of triggers without their
assigned value: such a call fails at once and counts nothing. -/
theorem failures_counted (detail : Option Level) (acts : List Act) :
    let log := ((new detail).history acts).1
    let propagators := ((new detail).history acts).2.propagators
    (∀ kind, (propagators kind).kind = kind) ∧
    (∀ e ∈ log, e.net.MayTrigger e.trigger → ∃ outcome, e.answer = .ok outcome) ∧
    (propagators .check).violations = log.countP (·.ended .check Status.isViolation) ∧
    (propagators .arc).wipeouts + log.countP Entry.adrift =
      log.countP (·.ended .arc Status.isEmptyDomain) ∧
    (∀ e ∈ log, e.adrift = true → e.ended .arc Status.isEmptyDomain = true) ∧
    ((∀ e ∈ log, e.net.Anchored) →
      (propagators .arc).wipeouts = log.countP (·.ended .arc Status.isEmptyDomain)) := by
  intro log propagators
  have h : Tallied log ((new detail).history acts).2 := (tallied_new detail).history acts
  refine ⟨h.kind_eq, h.answered, h.violations_eq, h.wipeouts_eq, h.adrift,
    fun hanchored => ?_⟩
  have hnone : log.countP Entry.adrift = 0 := by
    rw [List.countP_eq_zero]
    intro e he hadrift
    have hnot := (hanchored e he).adrift_eq_false e.trigger
    rw [(Bool.and_eq_true_iff.mp hadrift).2] at hnot
    cases hnot
  have hcounted := h.wipeouts_eq
  rw [hnone, Nat.add_zero] at hcounted
  exact hcounted

/-- A variable is assigned a value that is pruned afterwards. The call that it triggers empties the
domain, and the counter stays at zero. -/
theorem wipeout_uncounted :
    let requests : List Network.Request :=
      [.newVariable "x" [0, 1], .change ⟨0⟩ (.assign 0), .change ⟨0⟩ (.prune 0)]
    let b := (new none).history (requests.map (.request 0) ++ [.propagate 0 .arc (some ⟨0⟩)])
    (Network.empty.session requests).1.map Network.Exchange.answer =
        [.ok (.variable ⟨0⟩), .ok .done, .ok .done] ∧
      b.1.map (fun e => (e.net.vars.get? ⟨0⟩).bind Variable.assignedValue) = [some 0] ∧
      b.1.countP (·.ended .arc Status.isEmptyDomain) = 1 ∧
      (b.2.propagators .arc).wipeouts = 0 := by
  refine ⟨rfl, ?_, ?_, ?_⟩ <;> decide +kernel

end Bench

end FiniteDomain
