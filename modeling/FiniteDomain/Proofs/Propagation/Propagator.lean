import FiniteDomain.Propagation.Propagator
import FiniteDomain.Proofs.Propagation.Arc
import FiniteDomain.Proofs.Propagation.Call
import FiniteDomain.Proofs.Propagation.Check
import FiniteDomain.Proofs.Propagation.Forward
/-!
# What propagators guarantee

Every call with no trigger or an assigned one answers. Each kind has its own reasons for removals
and failures, and its own view of what a consistent answer settles; none of them ever rules out a
completion.
-/
namespace FiniteDomain

namespace PropagatorKind

/-- The reasons for which a value may go. -/
def Discards (kind : PropagatorKind) (net : Network) (trigger : Option VariableId)
    (r : Removal) : Prop :=
  match kind with
  | check => False
  | forward => net.Unfit trigger r
  | arc => net.Unsupported trigger r

/-- What a consistent answer says of the network that is left. -/
def Settles (kind : PropagatorKind) (net : Network) (trigger : Option VariableId)
    (net' : Network) : Prop :=
  match kind with
  | check => ∀ x id c, trigger = some x → net.constraints.get? id = some c → x ∈ c.scope →
      ¬Check.Violated net c
  | forward => ∀ c x a, net.Examines trigger c → net.pending c = [x] → net'.Has x a →
      c.SatisfiedBy (net.trial x a)
  | arc => (∀ id c, net.constraints.get? id = some c → net.Due trigger c → net'.Consistent c) ∧
      net'.Respects trigger net'.Has

/-- What a failure says of the network that was given. -/
def Refutes (kind : PropagatorKind) (net : Network) (trigger : Option VariableId)
    (why : Inconsistency) : Prop :=
  match kind with
  | check => ∃ x id c, trigger = some x ∧ net.constraints.get? id = some c ∧ x ∈ c.scope ∧
      why = .constraintViolated id ∧ Check.Violated net c
  | forward => ∃ x, why = .emptyDomain x
  | arc => ∃ x, why = .emptyDomain x

end PropagatorKind

/-- A call can look at what an assigned variable changed, or without a trigger at everything. -/
def Network.MayTrigger (net : Network) (trigger : Option VariableId) : Prop :=
  ∀ x, trigger = some x → ∃ b, net.assigned x = some b

theorem Network.mayTrigger_none (net : Network) : net.MayTrigger none :=
  fun _ hx => nomatch hx

/-- The propagator can be called: a queue that outlives its calls is empty between them. -/
def Propagator.Ready : Propagator → Prop
  | check _ => True
  | forward _ => True
  | arc s => s.queue.Coherent ∧ s.queue.toList = []

/-- All that a search relies on in a call. -/
structure Propagator.Behaves (p : Propagator) (trigger : Option VariableId) (net : Network)
    (j : Journal) (outcome : Outcome) : Prop
    extends (p.call trigger net j).Answers net j outcome where
  ready : (p.call trigger net j).own.Ready
  kind_eq : (p.call trigger net j).own.kind = p.kind
  discards : ∀ r ∈ outcome.removed, p.kind.Discards net trigger r
  settles : outcome.status = .consistent →
    p.kind.Settles net trigger (net.without outcome.removed)
  refutes : ∀ why, outcome.status = .inconsistent why → p.kind.Refutes net trigger why

variable {p : Propagator} {net : Network} {trigger : Option VariableId} {j : Journal}
  {outcome : Outcome} {s : Solution} {x : VariableId} {a : Int}

theorem Call.Answers.mapOwn {σ τ : Type} {r : Call σ} (h : r.Answers net j outcome) (own : τ) :
    ({ r with own := own } : Call τ).Answers net j outcome :=
  ⟨h.answer_eq, h.network_eq, h.records, h.solutions_eq, h.outlived, h.emptied⟩

theorem Propagator.behaves_check (hwf : net.WellFormed)
    (hknown : ∀ x, trigger = some x → net.Knows x) (counters : CheckCounters) (j : Journal) :
    ∃ outcome, (check counters).Behaves trigger net j outcome := by
  have htracks := Pass.tracks_start hwf j counters fun _ => False
  have hends := Check.ends_pass (p := ⟨net, #[], j, counters⟩) hwf rfl trigger hknown
  obtain ⟨outcome, q, hanswers, hwhy, -, -, -, -, hsettles, hrefutes⟩ :=
    PassM.call_answers (check counters).name trigger
      (Q := fun _ => PropagatorKind.check.Settles net trigger net)
      (E := fun i _ => PropagatorKind.check.Refutes net trigger i)
      (hends.mono
        (by
          intro _ q h
          obtain ⟨hnot, own, rfl, -⟩ := h
          exact ⟨htracks.of_eq rfl rfl rfl, fun {_ a} ha => ⟨a, ha⟩, hnot⟩)
        (by
          intro h q h
          obtain ⟨⟨x, id, c, hx, hc, hmem, rfl, hviolated⟩, own, rfl, -⟩ := h
          refine ⟨_, rfl, htracks.of_eq rfl rfl rfl, fun y he => (nomatch he), ?_⟩
          exact ⟨x, id, c, hx, hc, hmem, rfl, hviolated⟩))
  exact ⟨outcome, hanswers.mapOwn _, trivial, rfl, hwhy, hsettles, hrefutes⟩

theorem Propagator.behaves_forward (hwf : net.WellFormed)
    (hknown : ∀ x, trigger = some x → net.Knows x) (counters : ForwardCounters) (j : Journal) :
    ∃ outcome, (forward counters).Behaves trigger net j outcome := by
  have htracks := Pass.tracks_start hwf j counters (net.Unfit trigger)
  have hends := Forward.ends_pass hwf hknown rfl htracks
  obtain ⟨outcome, q, hanswers, hwhy, -, hnet, -, -, hsettles, hrefutes⟩ :=
    PassM.call_answers (forward counters).name trigger
      (Q := fun q => PropagatorKind.forward.Settles net trigger q.network)
      (E := fun i _ => PropagatorKind.forward.Refutes net trigger i)
      (hends.mono
        (by
          intro _ q h
          obtain ⟨⟨hq, halive⟩, hfit⟩ := h
          exact ⟨hq, halive, hfit⟩)
        (by
          intro h q h
          obtain ⟨x, rfl, hwipes⟩ := h
          refine ⟨_, rfl, hwipes.toTracks, fun y he => ?_, x, rfl⟩
          cases he
          exact hwipes))
  refine ⟨outcome, hanswers.mapOwn _, trivial, rfl, hwhy, fun hs => ?_, hrefutes⟩
  rw [← hanswers.network_eq, hnet]
  exact hsettles hs

theorem Propagator.behaves_arc (hwf : net.WellFormed)
    (htrigger : net.MayTrigger trigger) {state : ArcState}
    (hready : (arc state).Ready) (j : Journal) :
    ∃ outcome, (arc state).Behaves trigger net j outcome := by
  have htracks := Pass.tracks_start hwf j state (net.Unsupported trigger)
  have hends := Arc.ends_pass hwf rfl htracks (fun r => by simp) hready.1 hready.2 htrigger
  obtain ⟨outcome, q, hanswers, hwhy, -, hnet, hown, -, hsettles, hrefutes⟩ :=
    PassM.call_answers (arc state).name trigger
      (Q := fun q => PropagatorKind.arc.Settles net trigger q.network ∧ (arc q.own).Ready)
      (E := fun i q => PropagatorKind.arc.Refutes net trigger i ∧ (arc q.own).Ready)
      (hends.mono
        (by
          intro _ q h
          obtain ⟨hq, hqueue⟩ := h
          refine ⟨hq.toTracks, hq.alive, ⟨fun id c hc hdue => ?_, hq.narrowed⟩, hq.coherent, hqueue⟩
          rcases hq.settled hc hdue with hid | hid | hcons
          · rw [hqueue] at hid
            cases hid
          · cases hid
          · exact hcons)
        (by
          intro h q h
          obtain ⟨x, rfl, hwiped⟩ := h
          refine ⟨_, rfl, hwiped.toTracks, fun y he => ?_, ⟨x, rfl⟩, hwiped.coherent, hwiped.queue_eq⟩
          cases he
          exact hwiped.toWipes))
  have hready' : (arc q.own).Ready := by
    cases hs : outcome.status with
    | consistent => exact (hsettles hs).2
    | inconsistent why => exact (hrefutes why hs).2
  rw [← hown] at hready'
  refine ⟨outcome, hanswers.mapOwn _, hready', rfl, hwhy, fun hs => ?_, fun why hs => ?_⟩
  · rw [← hanswers.network_eq, hnet]
    exact (hsettles hs).1
  · exact (hrefutes why hs).1

/-- Every call of a ready propagator answers, and leaves it ready. -/
theorem Propagator.call_behaves (hwf : net.WellFormed)
    (htrigger : net.MayTrigger trigger) (hready : p.Ready)
    (j : Journal) : ∃ outcome, p.Behaves trigger net j outcome := by
  have hknown : ∀ x, trigger = some x → net.Knows x := by
    intro x hx
    obtain ⟨b, hb⟩ := htrigger x hx
    exact Network.knows_of_assigned hb
  cases p with
  | check counters => exact behaves_check hwf hknown counters j
  | forward counters => exact behaves_forward hwf hknown counters j
  | arc state => exact behaves_arc hwf htrigger hready j

theorem Propagator.Behaves.exists_emptyDomain (h : p.Behaves trigger net j outcome)
    (hkind : p.kind ≠ .check) (hstatus : outcome.status ≠ .consistent) :
    ∃ x, outcome.status = .inconsistent (.emptyDomain x) := by
  cases hs : outcome.status with
  | consistent => exact absurd hs hstatus
  | inconsistent why =>
    have hrefutes := h.refutes why hs
    cases hp : p.kind with
    | check => exact absurd hp hkind
    | forward | arc =>
      rw [hp] at hrefutes
      obtain ⟨x, rfl⟩ := hrefutes
      exact ⟨x, rfl⟩

theorem Network.CompletedBy.satisfiedBy_trial (h : net.CompletedBy s) {id : ConstraintId}
    {c : Constraint} (hc : net.constraints.get? id = some c) (hpending : net.pending c = [x])
    (hs : s.get? x = some a) : c.SatisfiedBy (net.trial x a) := by
  refine (Constraint.satisfiedBy_congr fun y hy => ?_).mp (h.satisfied hc)
  by_cases hyx : y = x
  · rw [hyx, hs, trial, if_pos rfl]
  · rw [trial, if_neg hyx]
    cases hassigned : net.assigned y with
    | some b => exact h.agrees hassigned
    | none =>
      have hmem := mem_pending.mpr ⟨hy, hassigned⟩
      rw [hpending] at hmem
      exact absurd (List.mem_singleton.mp hmem) hyx

theorem Network.CompletedBy.not_violated (h : net.CompletedBy s) {id : ConstraintId}
    {c : Constraint} (hc : net.constraints.get? id = some c) : ¬Check.Violated net c := by
  intro h
  obtain ⟨hpending, hnot⟩ := h
  apply hnot
  refine (Constraint.satisfiedBy_congr fun y hy => ?_).mp (h.satisfied hc)
  cases hassigned : net.assigned y with
  | some b => exact h.agrees hassigned
  | none =>
    have hmem := mem_pending.mpr ⟨hy, hassigned⟩
    rw [hpending] at hmem
    cases hmem

/-- No reason for a removal holds of a value of a completion. -/
theorem Network.CompletedBy.not_discards (h : net.CompletedBy s) (hs : s.get? x = some a)
    (kind : PropagatorKind) : ¬kind.Discards net trigger ⟨x, a⟩ := by
  cases kind with
  | check => exact id
  | forward =>
    intro h
    obtain ⟨c, ⟨⟨id, hc⟩, -⟩, hpending, hnot⟩ := h
    exact hnot (h.satisfiedBy_trial hc hpending hs)
  | arc => exact h.not_unsupported hs

/-- A completion stays one: no call takes any of its values. -/
theorem Propagator.Behaves.completedBy (h : p.Behaves trigger net j outcome)
    (hs : net.CompletedBy s) : (net.without outcome.removed).CompletedBy s where
  size_eq := by
    rw [hs.size_eq, Network.numVariables, Network.numVariables, Network.size_vars_without]
  satisfied hc := hs.satisfied hc
  offers hx := by
    rw [Network.has_without]
    exact ⟨hs.offers hx, fun hmem => hs.not_discards hx p.kind (h.discards _ hmem)⟩
  agrees hx := hs.agrees (by rwa [Network.assigned_without] at hx)

theorem Propagator.Behaves.not_completedBy (h : p.Behaves trigger net j outcome)
    (hs : outcome.status ≠ .consistent) : ¬net.CompletedBy s := by
  intro hcompleted
  cases hstatus : outcome.status with
  | consistent => exact hs hstatus
  | inconsistent why =>
    have hrefutes := h.refutes why hstatus
    have hemptied : ∀ x, why ≠ .emptyDomain x := by
      intro x h
      subst h
      have hwiped := h.emptied hstatus
      obtain ⟨rs, a, hlast⟩ := hwiped.last
      have ha : net.Has x a := h.records.current ⟨x, a⟩ (by rw [hlast]; simp)
      obtain ⟨b, hb⟩ := Network.get?_of_knows hcompleted.size_eq ha.knows
      exact hwiped.empty b ((h.completedBy hcompleted).offers hb)
    cases hkind : p.kind with
    | check =>
      rw [hkind] at hrefutes
      obtain ⟨x, id, c, -, hc, -, -, hviolated⟩ := hrefutes
      exact hcompleted.not_violated hc hviolated
    | forward =>
      rw [hkind] at hrefutes
      obtain ⟨x, hx⟩ := hrefutes
      exact hemptied x hx
    | arc =>
      rw [hkind] at hrefutes
      obtain ⟨x, hx⟩ := hrefutes
      exact hemptied x hx

end FiniteDomain
