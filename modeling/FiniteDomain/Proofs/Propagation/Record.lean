import FiniteDomain.Proofs.Propagation.Discipline
import FiniteDomain.Proofs.Propagation.Soundness
/-!
# The record of a call

All propagators are disciplined, and so is the removal of any list of values: as long as a call
answers, its record is exact. The three kinds moreover empty no domain without saying so.
-/
namespace FiniteDomain

variable {p : Propagator} {net : Network} {trigger : Option VariableId} {j : Journal}
  {outcome : Outcome} {x : VariableId}

open PassM

theorem Check.disciplined_examine (id : ConstraintId) : (examine id).Disciplined := by
  refine (disciplined_constraintAt id).bind fun c => disciplined_vars.bind fun vars =>
    (disciplined_demand _).bind fun values => ?_
  cases values with
  | none => exact disciplined_pure _
  | some t =>
    refine (disciplined_modifyOwn _).bind fun _ => ?_
    by_cases hcheck : c.check t = true
    · rw [if_pos hcheck]
      exact disciplined_pure _
    · rw [if_neg hcheck]
      exact (disciplined_modifyOwn _).bind fun _ => disciplined_throw _

theorem Check.disciplined_pass (trigger : Option VariableId) : (pass trigger).Disciplined := by
  cases trigger with
  | none => exact disciplined_pure _
  | some x =>
    refine (disciplined_constraintsContaining x).bind fun ids => ?_
    exact Disciplined.forM fun id _ => disciplined_examine id

theorem Forward.disciplined_tryValue (c : Constraint) (x : VariableId) (a : Int) :
    (tryValue c x a).Disciplined := by
  have hprobe : (probe c x a).Disciplined :=
    disciplined_probe x a (fun vars => c.assignedValues vars) fun values => values.any c.check
  refine (disciplined_modifyOwn _).bind fun _ => hprobe.bind fun found => ?_
  cases found with
  | true => exact disciplined_pure _
  | false => exact disciplined_remove _

theorem Forward.disciplined_tryLast (c : Constraint) : (tryLast c).Disciplined := by
  refine disciplined_vars.bind fun vars => (disciplined_demand _).bind fun free => ?_
  split
  · next x =>
    refine (disciplined_modifyOwn _).bind fun _ => (disciplined_domainValues x).bind fun values => ?_
    exact Disciplined.forM fun a _ => disciplined_tryValue c x a
  · exact disciplined_throw _

theorem Forward.disciplined_examine (id : ConstraintId) : (examine id).Disciplined := by
  refine (disciplined_constraintAt id).bind fun c => disciplined_vars.bind fun vars =>
    (disciplined_demand _).bind fun free => ?_
  by_cases hone : free.length = 1
  · rw [if_pos hone]
    exact disciplined_tryLast c
  · rw [if_neg hone]
    exact disciplined_pure _

theorem Forward.disciplined_pass (trigger : Option VariableId) : (pass trigger).Disciplined := by
  have hall (ids : List ConstraintId) : (ids.forM examine).Disciplined :=
    Disciplined.forM fun id _ => disciplined_examine id
  cases trigger with
  | none => exact disciplined_constraintIds.bind hall
  | some x => exact (disciplined_constraintsContaining x).bind hall

namespace Arc

theorem disciplined_reviseValue (c : Constraint) (x : VariableId) (a : Int) :
    (reviseValue c x a).Disciplined := by
  refine (disciplined_modifyOwn _).bind fun _ => disciplined_vars.bind fun vars =>
    (disciplined_demand _).bind fun found => ?_
  cases found with
  | true => exact disciplined_pure _
  | false =>
    refine (disciplined_remove _).bind fun _ => (disciplined_constraintsContaining x).bind fun ids => ?_
    exact disciplined_modifyOwn _

theorem disciplined_revise (id : ConstraintId) : (revise id).Disciplined := by
  refine (disciplined_modifyOwn _).bind fun _ => (disciplined_constraintAt id).bind fun c => ?_
  refine Disciplined.forM fun x _ => (disciplined_domainValues x).bind fun values => ?_
  exact Disciplined.forM fun a _ => disciplined_reviseValue c x a

theorem disciplined_dequeue : dequeue.Disciplined := by
  refine disciplined_get.bind fun p => (disciplined_demand _).bind fun popped => ?_
  cases popped with
  | none => exact disciplined_pure _
  | some popped => exact (disciplined_modifyOwn _).bind fun _ => disciplined_pure _

theorem disciplined_clearQueue : clearQueue.Disciplined :=
  disciplined_get.bind fun _ => (disciplined_demand _).bind fun _ => disciplined_modifyOwn _

theorem disciplined_drain (steps : Nat) : (drain steps).Disciplined := by
  induction steps with
  | zero => exact disciplined_pure _
  | succ steps ih =>
    refine disciplined_dequeue.bind fun next => ?_
    cases next with
    | none => exact disciplined_pure _
    | some id => exact (disciplined_revise id).bind fun _ => ih

theorem disciplined_start (trigger : Option VariableId) : (start trigger).Disciplined := by
  cases trigger with
  | none => exact disciplined_constraintIds.bind fun ids => disciplined_modifyOwn _
  | some x =>
    refine (disciplined_variableAt x).bind fun v => ?_
    split
    · exact disciplined_throw _
    · next b hb =>
      refine (disciplined_domainValues x).bind fun values => ?_
      refine Disciplined.bind (Disciplined.forM fun a _ => ?_) fun _ =>
        (disciplined_constraintsContaining x).bind fun ids => disciplined_modifyOwn _
      by_cases hab : a = b
      · rw [if_pos hab]
        exact disciplined_pure _
      · rw [if_neg hab]
        exact disciplined_remove _

theorem disciplined_onHalt (why : Inconsistency) : (onHalt (.inconsistent why)).Disciplined := by
  cases why with
  | emptyDomain x =>
    exact (disciplined_note _).bind fun _ => disciplined_clearQueue.bind fun _ =>
      (disciplined_modifyOwn _).bind fun _ => disciplined_throw _
  | constraintViolated id => exact disciplined_throw _

theorem disciplined_pass (trigger : Option VariableId) : (pass trigger).Disciplined := by
  have hrest : (start trigger >>= fun _ => get >>= fun q =>
      tryCatch (drain (sufficientSteps q)) onHalt).Disciplined :=
    (disciplined_start trigger).bind fun _ => disciplined_get.bind fun q =>
      (disciplined_drain _).tryCatch disciplined_onHalt fun _ => rfl
  refine disciplined_get.bind fun p => ?_
  by_cases hempty : p.own.queue.isEmpty = true
  · rw [if_pos hempty]
    exact hrest
  · rw [if_neg hempty]
    exact (disciplined_throw _).bind fun _ => hrest

end Arc

theorem Listed.disciplined_pass (removals : List Removal) : (pass removals).Disciplined :=
  Disciplined.forM fun r _ => disciplined_remove r

theorem Call.Exact.mapOwn {σ τ : Type} {r : Call σ} (h : r.Exact net outcome) (own : τ) :
    ({ r with own := own } : Call τ).Exact net outcome :=
  ⟨h.nodup, h.union, h.disjoint, h.assignments_eq, h.restored⟩

/-- Whatever its state and its trigger, a call that answers has an exact record. -/
theorem Propagator.call_exact (hwf : net.WellFormed)
    (hanswer : (p.call trigger net j).answer = .ok outcome) :
    (p.call trigger net j).Exact net outcome := by
  cases p with
  | check counters =>
    have hexact := (Check.disciplined_pass trigger).exact hwf hanswer
    exact hexact.mapOwn _
  | forward counters =>
    have hexact := (Forward.disciplined_pass trigger).exact hwf hanswer
    exact hexact.mapOwn _
  | arc state =>
    have hexact := (Arc.disciplined_pass trigger).exact hwf hanswer
    exact hexact.mapOwn _

theorem Listed.exists_answer {removals : List Removal} (hwf : net.WellFormed)
    (hknown : ∀ r ∈ removals, net.Knows r.var) (trigger : Option VariableId) (j : Journal) :
    ∃ outcome, (Listed.call removals trigger net j).answer = .ok outcome := by
  have htracks := Pass.tracks_start hwf j () fun _ => True
  have hends : Ends (pass removals) ⟨net, #[], j, ()⟩
      (fun _ q => q.Tracks net j.solutions fun _ => True)
      (fun h _ => ∃ why, h = .inconsistent why) := by
    refine ends_forM (fun _ (q : Pass Unit) => q.Tracks net j.solutions fun _ => True) htracks ?_
    intro done r rest q hsplit hq
    obtain ⟨v, hv⟩ := hq.knows_iff.mpr (hknown r (by simp [hsplit]))
    by_cases hr : q.network.Has r.var r.value
    · exact ends_remove (hq.wellFormed hwf) hr (fun j' hj' _ => hq.push hr trivial hj')
        fun _ _ _ => ⟨_, rfl⟩
    · have habsent : ¬v.contains r.value = true := fun ha => hr ⟨v, hv, ha⟩
      rw [remove, ends_bind, ends_variableAt hv, if_neg habsent, ends_pure]
      exact hq
  rw [Listed.call, PassM.call]
  unfold Ends at hends
  cases hrun : (pass removals).run ⟨net, #[], j, ()⟩ with
  | ok u q => exact ⟨_, rfl⟩
  | error halt q =>
    rw [hrun] at hends
    obtain ⟨why, rfl⟩ := hends
    exact ⟨_, rfl⟩

/-- The triggers that the kind can do something with. -/
def PropagatorKind.Admits (kind : PropagatorKind) (net : Network) (trigger : Option VariableId) :
    Prop :=
  match kind with
  | check => ∀ x, trigger = some x → net.Knows x
  | forward => ∀ x, trigger = some x → net.Knows x
  | arc => net.MayTrigger trigger

/-- The propagators that any calls lead to, also such as were refused. -/
inductive Propagator.Called : Propagator → Prop
  | ofKind (kind : PropagatorKind) : Called (.ofKind kind)
  | call {p : Propagator} {net : Network} (trigger : Option VariableId) (j : Journal) :
    Called p → net.Reachable → Called (p.call trigger net j).own

private theorem PassM.call_refused {σ : Type} (pass : PassM σ Unit) (own : σ) (name : String)
    (trigger : Option VariableId)
    (h : Ends pass ⟨net, #[], j, own⟩ (fun _ _ => False)
      fun h q => (∃ b, h = .breach b) ∧ q = ⟨net, #[], j, own⟩) :
    (∃ b, (pass.call name trigger net j own).answer = .error b) ∧
      (pass.call name trigger net j own).own = own ∧
      (pass.call name trigger net j own).network = net := by
  unfold Ends at h
  rw [PassM.call]
  cases hrun : pass.run ⟨net, #[], j, own⟩ with
  | ok u q =>
    rw [hrun] at h
    exact h.elim
  | error halt q =>
    rw [hrun] at h
    obtain ⟨⟨b, rfl⟩, rfl⟩ := h
    exact ⟨⟨b, rfl⟩, rfl, rfl⟩

private theorem Network.WellFormed.constraintsContaining_of_not_knows (hwf : net.WellFormed)
    (hx : ¬net.Knows x) : net.constraintsContaining x = .error (net.containing.missing x) := by
  have hnone : net.containing.get? x = none := by
    rw [Store.get?_eq_none_iff, hwf.index_size, ← Store.get?_eq_none_iff]
    exact Option.eq_none_iff_forall_ne_some.mpr fun v hv => hx ⟨v, hv⟩
  rw [constraintsContaining, Store.fetch, hnone]

private theorem ends_constraintsContaining_of_not_knows {σ : Type} {own : σ} (hwf : net.WellFormed)
    (hx : ¬net.Knows x) {f : List ConstraintId → PassM σ Unit} :
    Ends (PassM.constraintsContaining x >>= f) ⟨net, #[], j, own⟩ (fun _ _ => False)
      fun h q => (∃ b, h = .breach b) ∧ q = ⟨net, #[], j, own⟩ := by
  rw [ends_bind, PassM.constraintsContaining, ends_bind, ends_network,
    hwf.constraintsContaining_of_not_knows hx]
  exact ⟨⟨_, rfl⟩, rfl⟩

private theorem Arc.ends_pass_of_not_assigned {state : ArcState} (hready : (Propagator.arc state).Ready)
    (hx : net.assigned x = none) :
    Ends (pass (some x)) ⟨net, #[], j, state⟩ (fun _ _ => False)
      fun h q => (∃ b, h = .breach b) ∧ q = ⟨net, #[], j, state⟩ := by
  rw [pass, ends_bind, ends_get, if_pos (Queue.isEmpty_eq_true_iff.mpr hready.2), ends_bind, start,
    ends_bind]
  cases hv : net.vars.get? x with
  | none =>
    have hbreach : net.variableAt x = .error (net.vars.missing x) := by
      rw [Network.variableAt, Store.fetch, hv]
    rw [PassM.variableAt, ends_bind, ends_network, hbreach]
    exact ⟨⟨_, rfl⟩, rfl⟩
  | some v =>
    rw [Network.assigned, hv, Option.bind_some] at hx
    rw [ends_variableAt hv, hx]
    exact ⟨⟨_, rfl⟩, rfl⟩

/-- With any other trigger a call is refused, and leaves the propagator and the network as they
were. -/
theorem Propagator.call_refused (hwf : net.WellFormed) (hready : p.Ready)
    (hnot : ¬p.kind.Admits net trigger) (j : Journal) :
    (∃ b, (p.call trigger net j).answer = .error b) ∧ (p.call trigger net j).own = p ∧
      (p.call trigger net j).network = net := by
  have hunknown (hall : ¬∀ x, trigger = some x → net.Knows x) :
      ∃ x, trigger = some x ∧ ¬net.Knows x := by
    simpa only [not_forall, exists_prop] using hall
  cases p with
  | check counters =>
    obtain ⟨x, rfl, hx⟩ := hunknown hnot
    obtain ⟨hanswer, hown, hnet⟩ := PassM.call_refused (Check.pass (some x)) counters
      (check counters).name (some x) (ends_constraintsContaining_of_not_knows (j := j) hwf hx)
    exact ⟨hanswer, congrArg check hown, hnet⟩
  | forward counters =>
    obtain ⟨x, rfl, hx⟩ := hunknown hnot
    obtain ⟨hanswer, hown, hnet⟩ := PassM.call_refused (Forward.pass (some x)) counters
      (forward counters).name (some x) (ends_constraintsContaining_of_not_knows (j := j) hwf hx)
    exact ⟨hanswer, congrArg forward hown, hnet⟩
  | arc state =>
    obtain ⟨x, rfl, hx⟩ : ∃ x, trigger = some x ∧ net.assigned x = none := by
      have hall : ¬∀ x, trigger = some x → ∃ b, net.assigned x = some b := hnot
      simpa only [not_forall, exists_prop, ← Option.ne_none_iff_exists', not_not] using hall
    obtain ⟨hanswer, hown, hnet⟩ := PassM.call_refused (Arc.pass (some x)) state (arc state).name
      (some x) (Arc.ends_pass_of_not_assigned (j := j) hready hx)
    exact ⟨hanswer, congrArg arc hown, hnet⟩

theorem Propagator.call_behaves_of_admits (hwf : net.WellFormed) (hready : p.Ready)
    (hadmits : p.kind.Admits net trigger) (j : Journal) :
    ∃ outcome, p.Behaves trigger net j outcome := by
  cases p with
  | check counters => exact behaves_check hwf hadmits counters j
  | forward counters => exact behaves_forward hwf hadmits counters j
  | arc state => exact behaves_arc hwf hadmits hready j

theorem Propagator.Called.ready (h : p.Called) : p.Ready := by
  induction h with
  | ofKind kind => exact ready_ofKind kind
  | @call p net trigger j _ hnet ih =>
    by_cases hadmits : p.kind.Admits net trigger
    · obtain ⟨outcome, hbehaves⟩ := call_behaves_of_admits hnet.wellFormed ih hadmits j
      exact hbehaves.ready
    · rw [(call_refused hnet.wellFormed ih hadmits j).2.1]
      exact ih

/-- Of every propagator that removes on record and takes its assignments back, the record is exact.
The three kinds end at the first domain that they empty, and say which. -/
theorem Propagator.record_exact (hnet : net.Reachable) (trigger : Option VariableId) (j : Journal) :
    (∀ (σ : Type) (pass : PassM σ Unit) (name : String) (own : σ) (outcome : Outcome),
      pass.Disciplined → (pass.call name trigger net j own).answer = .ok outcome →
      (pass.call name trigger net j own).Exact net outcome) ∧
    (∀ removals : List Removal, (∀ r ∈ removals, net.Knows r.var) →
      ∃ outcome, (Listed.call removals trigger net j).answer = .ok outcome ∧
        (Listed.call removals trigger net j).Exact net outcome) ∧
    ∀ p : Propagator, p.Called →
      ((∃ outcome, (p.call trigger net j).answer = .ok outcome) ↔ p.kind.Admits net trigger) ∧
      ∀ outcome, (p.call trigger net j).answer = .ok outcome →
        (p.call trigger net j).Exact net outcome ∧
        (∀ x, outcome.status = .inconsistent (.emptyDomain x) →
          (∃ rs a, outcome.removed = rs ++ [⟨x, a⟩]) ∧
          (∀ a, ¬(p.call trigger net j).network.Has x a) ∧
          ∀ y, y ≠ x → (∃ a, net.Has y a) → ∃ b, (p.call trigger net j).network.Has y b) ∧
        (outcome.status = .consistent →
          ∀ x, (∃ a, net.Has x a) → ∃ b, (p.call trigger net j).network.Has x b) := by
  have hwf := hnet.wellFormed
  refine ⟨fun σ pass name own outcome h hanswer => h.exact hwf hanswer, ?_, ?_⟩
  · intro removals hknown
    obtain ⟨outcome, hanswer⟩ := Listed.exists_answer hwf hknown trigger j
    exact ⟨outcome, hanswer, (Listed.disciplined_pass removals).exact hwf hanswer⟩
  · intro p hp
    have hadmits (outcome : Outcome) (hanswer : (p.call trigger net j).answer = .ok outcome) :
        p.kind.Admits net trigger := by
      by_contra hnot
      obtain ⟨⟨b, hb⟩, -⟩ := call_refused hwf hp.ready hnot j
      rw [hb] at hanswer
      cases hanswer
    refine ⟨⟨fun h => hadmits _ h.choose_spec, fun h => ?_⟩, fun outcome hanswer => ?_⟩
    · obtain ⟨outcome, hbehaves⟩ := call_behaves_of_admits hwf hp.ready h j
      exact ⟨outcome, hbehaves.answer_eq⟩
    · obtain ⟨outcome', hbehaves⟩ := call_behaves_of_admits hwf hp.ready (hadmits _ hanswer) j
      obtain rfl : outcome' = outcome := Except.ok.inj (hbehaves.answer_eq.symm.trans hanswer)
      refine ⟨call_exact hwf hanswer, fun x hx => ?_, fun hstatus x ha => ?_⟩
      · have hemptied := hbehaves.emptied hx
        rw [hbehaves.network_eq]
        refine ⟨hemptied.last, hemptied.empty, fun y hy ha => ?_⟩
        obtain ⟨a, ha⟩ := ha
        exact hemptied.others hy ha
      · obtain ⟨a, ha⟩ := ha
        exact hbehaves.outlived hstatus ha

/-- On the pair of ordered variables with the first assigned: a list with a repeat and a foreign
value, and arc consistency after a call that was refused. -/
theorem Propagator.record_exact_orderedPair :
    let net := Network.orderedPair.assigning ⟨0⟩ 0
    let removals : List Removal := [⟨⟨1⟩, 0⟩, ⟨⟨1⟩, 0⟩, ⟨⟨0⟩, 7⟩]
    let listed := (Listed.pass removals).call "RemoveListed" (some ⟨0⟩) net (.empty none) ()
    let p := ((ofKind .arc).call (some ⟨1⟩) .orderedPair (.empty none)).own
    net.Reachable ∧ (∀ r ∈ removals, net.Knows r.var) ∧ (Listed.pass removals).Disciplined ∧
      p.Called ∧ p.kind.Admits net (some ⟨0⟩) ∧
      (∃ outcome, listed.answer = .ok outcome ∧ listed.Exact net outcome) ∧
      ∃ outcome, (p.call (some ⟨0⟩) net (.empty none)).answer = .ok outcome ∧
        (p.call (some ⟨0⟩) net (.empty none)).Exact net outcome := by
  intro net removals listed p
  have hnet : net.Reachable :=
    .assign (x := ⟨0⟩) (a := 0) Network.reachable_orderedPair rfl
  have hknown : ∀ r ∈ removals, net.Knows r.var := by
    intro r hr
    simp only [removals, List.mem_cons, List.not_mem_nil, or_false] at hr
    rcases hr with rfl | rfl | rfl
    · exact ⟨_, rfl⟩
    · exact ⟨_, rfl⟩
    · exact ⟨_, rfl⟩
  have hp : p.Called := .call _ _ (.ofKind .arc) Network.reachable_orderedPair
  have hkind : p.kind = .arc := rfl
  have hadmits : p.kind.Admits net (some ⟨0⟩) := by
    rw [hkind]
    intro x hx
    cases hx
    exact ⟨0, rfl⟩
  have hdisciplined := Listed.disciplined_pass removals
  obtain ⟨hgeneral, hlisted, hkinds⟩ := record_exact hnet (some ⟨0⟩) (.empty none)
  obtain ⟨outcome, hanswer, -⟩ := hlisted removals hknown
  obtain ⟨hiff, hexact⟩ := hkinds p hp
  obtain ⟨outcome', hanswer'⟩ := hiff.mpr hadmits
  exact ⟨hnet, hknown, hdisciplined, hp, hadmits,
    ⟨outcome, hanswer, hgeneral Unit _ _ () outcome hdisciplined hanswer⟩,
    outcome', hanswer', (hexact outcome' hanswer').1⟩

end FiniteDomain
