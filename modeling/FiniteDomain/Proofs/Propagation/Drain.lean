import FiniteDomain.Proofs.Propagation.Record
/-!
# The queue runs dry

Whole calls of arc consistency, with no bound on their loop. Every call gets to the end of it, has
taken no more constraints than were queued at the start or for its removals, and leaves the queue as
it found it. The counter of revisions tells how many it has taken.
-/
namespace FiniteDomain

/-- However the computation ends, `f` of the propagator's own state is as it was. -/
def PassM.Keeps {σ α β : Type} (f : σ → β) (m : PassM σ α) : Prop :=
  ∀ p, Ends m p (fun _ q => f q.own = f p.own) fun _ q => f q.own = f p.own

namespace PassM
variable {σ α β γ : Type} {f : σ → β} {m : PassM σ α}

theorem keeps_pure (a : α) : Keeps f (pure a : PassM σ α) := fun _ => rfl

theorem keeps_throw (h : Halt) : Keeps f (throw h : PassM σ α) := fun _ => rfl

theorem keeps_get : Keeps f (get : PassM σ (Pass σ)) := fun _ => rfl

theorem keeps_demand (r : Except Breach α) : Keeps f (demand r) := by
  cases r with
  | ok a => exact keeps_pure a
  | error b => exact keeps_throw _

theorem keeps_modify {g : Pass σ → Pass σ} (h : ∀ p, f (g p).own = f p.own) :
    Keeps f (modify g : PassM σ PUnit) := h

theorem keeps_modifyOwn {g : σ → σ} (h : ∀ s, f (g s) = f s) : Keeps f (modifyOwn g) :=
  keeps_modify fun p => h p.own

theorem Keeps.bind (hm : Keeps f m) {g : α → PassM σ γ} (hg : ∀ a, Keeps f (g a)) :
    Keeps f (m >>= g) := by
  intro p
  apply ends_bind.mpr
  apply (hm p).mono
  · intro a q hq
    apply (hg a q).mono <;> intro _ t ht <;> exact ht.trans hq
  · intro _ _ h
    exact h

theorem Keeps.forM {as : List α} {g : α → PassM σ PUnit} (hg : ∀ a, Keeps f (g a)) :
    Keeps f (as.forM g) := by
  rw [List.forM_eq_forM]
  induction as with
  | nil => exact keeps_pure _
  | cons a as ih =>
    rw [List.forM_cons]
    exact (hg a).bind fun _ => ih

theorem keeps_variableAt (x : VariableId) : Keeps f (variableAt x : PassM σ Variable) :=
  keeps_get.bind fun _ => keeps_demand _

theorem keeps_domainValues (x : VariableId) : Keeps f (domainValues x : PassM σ (List Int)) :=
  (keeps_variableAt x).bind fun _ => keeps_pure _

theorem keeps_setNetwork (net : Network) : Keeps f (setNetwork net : PassM σ PUnit) := fun _ => rfl

theorem keeps_note (e : Event) : Keeps f (note e : PassM σ PUnit) := fun _ => rfl

theorem keeps_network : Keeps f (network : PassM σ Network) := keeps_get.bind fun _ => keeps_pure _

theorem keeps_remove (r : Removal) : Keeps f (remove r : PassM σ PUnit) := by
  apply (keeps_variableAt r.var).bind
  intro x
  split
  · apply keeps_network.bind
    intro net
    apply (keeps_demand _).bind
    intro net'
    apply (keeps_setNetwork net').bind
    intro _
    refine Keeps.bind (keeps_modify fun p => ?_) fun _ => ?_
    · rfl
    · apply (keeps_note _).bind
      intro _
      split
      · exact (keeps_note _).bind fun _ => keeps_throw _
      · exact keeps_pure _
  · exact keeps_pure _

end PassM

namespace Arc

/-- A call without a bound on its loop: what is queued once it has started, how many constraints it
takes from the queue, and what it ends with. -/
inductive Calls (trigger : Option VariableId) (p : Pass ArcState) :
    List ConstraintId → Nat → EStateM.Result Halt (Pass ArcState) Unit → Prop
  | unstarted {q : Pass ArcState} {h : Halt} :
    (start trigger).run p = .error h q → Calls trigger p [] 0 (.error h q)
  | drained {q t : Pass ArcState} {taken : Nat} :
    (start trigger).run p = .ok () q → Drains q taken (.ok () t) →
      Calls trigger p q.own.queue.toList taken (.ok () t)
  | wiped {q t : Pass ArcState} {taken : Nat} {h : Halt} :
    (start trigger).run p = .ok () q → Drains q taken (.error h t) →
      Calls trigger p q.own.queue.toList taken ((onHalt h).run t)

variable {net : Network} {told : List Solution} {trigger : Option VariableId}
  {before : ArcCounters} {fresh taken : Nat} {p q : Pass ArcState} {h : Halt}
  {r : EStateM.Result Halt (Pass ArcState) Unit}

def revisions (s : ArcState) : Nat := s.counters.revisions

theorem keeps_reviseValue (c : Constraint) (x : VariableId) (a : Int) :
    PassM.Keeps revisions (reviseValue c x a) := by
  have hcount : PassM.Keeps revisions
      (count fun n => { n with supportChecks := n.supportChecks + 1 }) :=
    PassM.keeps_modifyOwn fun _ => rfl
  apply hcount.bind
  intro _
  apply (PassM.keeps_get.bind fun _ => PassM.keeps_pure _).bind
  intro vars
  apply (PassM.keeps_demand _).bind
  intro found
  split
  · exact PassM.keeps_pure _
  · apply (PassM.keeps_remove _).bind
    intro _
    apply (PassM.keeps_network.bind fun _ => PassM.keeps_demand _).bind
    intro ids
    exact PassM.keeps_modifyOwn fun _ => rfl

theorem ends_revise_revisions (p : Pass ArcState) (id : ConstraintId) :
    Ends (revise id) p (fun _ q => revisions q.own = revisions p.own + 1)
      fun _ q => revisions q.own = revisions p.own + 1 := by
  rw [revise, count, ends_bind, PassM.ends_modifyOwn]
  have hrest : PassM.Keeps revisions
      (PassM.constraintAt id >>= fun c => c.scope.forM (reviseVariable c)) := by
    apply (PassM.keeps_network.bind fun _ => PassM.keeps_demand _).bind
    intro c
    apply PassM.Keeps.forM
    intro x
    apply (PassM.keeps_domainValues x).bind
    intro values
    exact PassM.Keeps.forM fun a => keeps_reviseValue c x a
  exact hrest _

/-- The counter goes up by what the loop takes from the queue. -/
theorem Drains.revisions_eq (h : Drains p taken r) : match r with
    | .ok _ q => revisions q.own = revisions p.own + taken
    | .error _ q => revisions q.own = revisions p.own + taken := by
  induction h with
  | idle _ => rfl
  | @halted p q id rest h hpop hrun =>
    have hone := ends_revise_revisions (dequeued p rest) id
    unfold Ends at hone
    rw [hrun] at hone
    exact hone
  | @revised p q id rest taken r hpop hrun _ ih =>
    have hone := ends_revise_revisions (dequeued p rest) id
    unfold Ends at hone
    rw [hrun] at hone
    have hp : revisions (dequeued p rest).own = revisions p.own := rfl
    cases r <;> simp only at hone ih ⊢ <;> omega

theorem keeps_start (trigger : Option VariableId) : PassM.Keeps revisions (start trigger) := by
  have hqueue (ids : List ConstraintId) : PassM.Keeps revisions (enqueueAll ids) :=
    PassM.keeps_modifyOwn fun _ => rfl
  cases trigger with
  | none => exact (PassM.keeps_network.bind fun _ => PassM.keeps_pure _).bind hqueue
  | some x =>
    apply (PassM.keeps_variableAt x).bind
    intro v
    split
    · exact PassM.keeps_throw _
    · apply (PassM.keeps_domainValues x).bind
      intro values
      refine PassM.Keeps.bind (PassM.Keeps.forM fun a => ?_) fun _ => ?_
      · split
        · exact PassM.keeps_pure _
        · exact PassM.keeps_remove _
      · exact (PassM.keeps_network.bind fun _ => PassM.keeps_demand _).bind hqueue

theorem Working.recount (h : Working net told trigger before fresh none p) :
    Working net told trigger p.own.counters p.own.queue.length none p where
  toTracks := h.toTracks
  coherent := h.coherent
  revisions_le := Nat.le_add_right _ _
  wipeouts_eq := rfl
  alive := h.alive
  narrowed := h.narrowed
  queued := h.queued
  settled := h.settled

/-- The constraints taken are paid for by those queued at the start and by the removals. -/
structure Paid (net : Network) (p : Pass ArcState) (queued : List ConstraintId) (taken : Nat)
    (q : Pass ArcState) : Prop where
  taken_le : taken ≤ queued.length + requeued net q.removed.toList
  revisions_eq : revisions q.own = revisions p.own + taken

/-- The loop gets to its end, and pays for what it takes. -/
theorem Working.drains (hq : Working net told trigger before fresh none q) (hwf : net.WellFormed) :
    Ends (Arc.drain (sufficientSteps q)) q
      (fun _ t => ∃ taken, Drains q taken (.ok () t) ∧ Paid net q q.own.queue.toList taken t)
      (fun h t => Broken net told trigger q.own.counters q.own.queue.length h t ∧
        ∃ taken, Drains q taken (.error h t) ∧ Paid net q q.own.queue.toList taken t) := by
  have hpaid {t : Pass ArcState} {taken : Nat}
      (htally : t.own.counters.revisions + t.own.queue.length ≤
        q.own.counters.revisions + q.own.queue.length + requeued net t.removed.toList)
      (hcount : revisions t.own = revisions q.own + taken) :
      Paid net q q.own.queue.toList taken t := by
    refine ⟨?_, hcount⟩
    rw [Queue.length_toList]
    simp only [revisions] at hcount
    omega
  apply (hq.recount.drain hwf (Nat.le_refl _)).mono
  · intro _ t h
    obtain ⟨⟨ht, -⟩, taken, hdrains⟩ := h
    exact ⟨taken, hdrains, hpaid ht.revisions_le hdrains.revisions_eq⟩
  · intro h t hbroken
    obtain ⟨hbroken, taken, hdrains⟩ := hbroken
    exact ⟨hbroken, taken, hdrains, hpaid hbroken.revisions_le hdrains.revisions_eq⟩

theorem ends_pass_calls (hwf : net.WellFormed) (hnet : p.network = net)
    (htracks : p.Tracks net told (net.Unsupported trigger)) (hfresh : ∀ r, r ∉ p.removed.toList)
    (hcoherent : p.own.queue.Coherent) (hqueue : p.own.queue.toList = [])
    (htrigger : net.MayTrigger trigger) :
    Ends (pass trigger) p
      (fun _ t => ∃ queued taken, Calls trigger p queued taken (.ok () t) ∧
        Paid net p queued taken t)
      (fun h t => ∃ queued taken, Calls trigger p queued taken (.error h t) ∧
        Paid net p queued taken t) := by
  rw [pass, ends_bind, ends_get, if_pos (Queue.isEmpty_eq_true_iff.mpr hqueue)]
  have hstart := (ends_start hwf hnet htracks hfresh hcoherent hqueue htrigger).and
    ((keeps_start trigger p).and (ends_run (start trigger) p))
  refine ends_bind.mpr (hstart.mono ?_ ?_)
  · intro _ q h
    obtain ⟨hq, hkept, hrun⟩ := h
    have hpaid {t : Pass ArcState} {taken : Nat} (ht : Paid net q q.own.queue.toList taken t) :
        Paid net p q.own.queue.toList taken t :=
      ⟨ht.taken_le, hkept ▸ ht.revisions_eq⟩
    rw [ends_bind, ends_get, ends_tryCatch]
    apply (hq.drains hwf).mono
    · intro _ t h
      obtain ⟨taken, hdrains, ht⟩ := h
      exact ⟨_, taken, .drained hrun hdrains, hpaid ht⟩
    · intro h t hbroken
      obtain ⟨hbroken, taken, hdrains, ht⟩ := hbroken
      obtain ⟨x, rfl, -⟩ := hbroken.wiped
      have hwiped := Calls.wiped hrun hdrains
      rw [ends_onHalt hbroken.coherent]
      rw [run_onHalt hbroken.coherent] at hwiped
      exact ⟨_, taken, hwiped, hpaid ⟨ht.taken_le, ht.revisions_eq⟩⟩
  · intro h q hstopped
    obtain ⟨-, hkept, hrun⟩ := hstopped
    exact ⟨[], 0, .unstarted hrun, Nat.zero_le _, hkept⟩

end Arc

variable {σ : Type} {net : Network} {trigger : Option VariableId} {j : Journal} {own : σ}
  {outcome : Outcome}

theorem PassM.exists_run_of_answer {pass : PassM σ Unit} {name : String}
    (h : (pass.call name trigger net j own).answer = .ok outcome) :
    ∃ t, (pass.run ⟨net, #[], j, own⟩ = .ok () t ∨
        ∃ why, pass.run ⟨net, #[], j, own⟩ = .error (.inconsistent why) t) ∧
      (pass.call name trigger net j own).own = t.own ∧ outcome.removed = t.removed.toList := by
  rw [call] at h ⊢
  cases hrun : pass.run ⟨net, #[], j, own⟩ with
  | ok u t =>
    simp only [hrun, Except.ok.injEq] at h ⊢
    exact ⟨t, .inl rfl, rfl, h ▸ rfl⟩
  | error halt t =>
    cases halt with
    | inconsistent why =>
      simp only [hrun, Except.ok.injEq] at h ⊢
      exact ⟨t, .inr ⟨why, rfl⟩, rfl, h ▸ rfl⟩
    | breach b => simp [hrun] at h

/-- Every call of arc consistency gets to the end of its loop, however often the propagator was
called before. No access of the queue's flags is out of bounds, and each constraint taken has its flag
until then. The call takes no more constraints from the queue than it has put there at the start and
for its removals, and leaves it empty and without flags. -/
theorem Propagator.arc_call_drains {state : ArcState} (hp : (arc state).Called)
    (hnet : net.Reachable) (htrigger : net.MayTrigger trigger) (j : Journal) :
    ∃ outcome state' queued taken, ((arc state).call trigger net j).answer = .ok outcome ∧
      ((arc state).call trigger net j).own = arc state' ∧
      (outcome.status = .consistent ∨ ∃ x, outcome.status = .inconsistent (.emptyDomain x)) ∧
      Arc.Calls trigger ⟨net, #[], j, state⟩ queued taken
        ((Arc.pass trigger).run ⟨net, #[], j, state⟩) ∧
      taken ≤ queued.length +
        (outcome.removed.map fun r => (net.mentioning r.var).length).sum ∧
      state'.counters.revisions = state.counters.revisions + taken ∧
      state'.queue.isEmpty = true ∧ (∀ id, state'.queue.isEnqueued id = false) ∧
      ∀ net' trigger' j', net'.Reachable → net'.MayTrigger trigger' →
        ∃ outcome', ((arc state').call trigger' net' j').answer = .ok outcome' := by
  have hwf := hnet.wellFormed
  have hready := hp.ready
  obtain ⟨outcome, hbehaves⟩ := call_behaves hwf htrigger hready j
  have hanswer : ((Arc.pass trigger).call (arc state).name trigger net j state).answer =
      .ok outcome := hbehaves.answer_eq
  obtain ⟨t, hrun, hown, hremoved⟩ := PassM.exists_run_of_answer hanswer
  have hown' : ((arc state).call trigger net j).own = arc t.own := congrArg arc hown
  have hready' : (arc t.own).Ready := hown' ▸ hbehaves.ready
  have hcalls := Arc.ends_pass_calls (p := ⟨net, #[], j, state⟩) hwf rfl
    (Pass.tracks_start hwf j state _) (by simp) hready.1 hready.2 htrigger
  obtain ⟨queued, taken, hcalls, hpaid⟩ : ∃ queued taken, Arc.Calls trigger ⟨net, #[], j, state⟩
      queued taken ((Arc.pass trigger).run ⟨net, #[], j, state⟩) ∧
      Arc.Paid net ⟨net, #[], j, state⟩ queued taken t := by
    unfold Ends at hcalls
    rcases hrun with hrun | ⟨why, hrun⟩ <;> rw [hrun] at hcalls ⊢ <;> exact hcalls
  refine ⟨outcome, t.own, queued, taken, hanswer, hown', ?_, hcalls, ?_, hpaid.revisions_eq,
    Queue.isEmpty_eq_true_iff.mpr hready'.2, ?_, ?_⟩
  · cases hstatus : outcome.status with
    | consistent => exact .inl rfl
    | inconsistent why =>
      obtain ⟨x, rfl⟩ := hbehaves.refutes why hstatus
      exact .inr ⟨x, rfl⟩
  · rw [hremoved]
    exact hpaid.taken_le
  · intro id
    rw [Bool.eq_false_iff]
    intro hid
    have hmem := (hready'.1.flagged id).mp hid
    rw [hready'.2] at hmem
    cases hmem
  · intro net' trigger' j' hnet' htrigger'
    obtain ⟨outcome', hbehaves'⟩ := call_behaves hnet'.wellFormed htrigger' hready' j'
    exact ⟨outcome', hbehaves'.answer_eq⟩

/-- The propagator has just wiped out a domain, of a pair whose first variable had the greater value
assigned. On the pair without assignments it then starts from an empty queue. -/
theorem Propagator.arc_call_drains_orderedPair :
    let wiped := (ofKind .arc).call (some ⟨0⟩) (Network.orderedPair.assigning ⟨0⟩ 1) (.empty none)
    wiped.answer =
        .ok ⟨.inconsistent (.emptyDomain ⟨0⟩), [⟨⟨0⟩, 0⟩, ⟨⟨0⟩, 1⟩]⟩ ∧
      ∃ state, wiped.own = arc state ∧ (arc state).Called ∧ Network.orderedPair.Reachable ∧
        Network.orderedPair.MayTrigger none ∧
        ∃ outcome state' queued taken,
          ((arc state).call none .orderedPair (.empty none)).answer = .ok outcome ∧
          ((arc state).call none .orderedPair (.empty none)).own = arc state' ∧
          Arc.Calls none ⟨.orderedPair, #[], .empty none, state⟩ queued taken
            ((Arc.pass none).run ⟨.orderedPair, #[], .empty none, state⟩) ∧
          taken ≤ queued.length +
            (outcome.removed.map fun r => (Network.orderedPair.mentioning r.var).length).sum ∧
          state'.queue.isEmpty = true ∧ ∀ id, state'.queue.isEnqueued id = false := by
  have hanswer : ((ofKind .arc).call (some ⟨0⟩) (Network.orderedPair.assigning ⟨0⟩ 1)
      (.empty none)).answer =
      .ok ⟨.inconsistent (.emptyDomain ⟨0⟩), [⟨⟨0⟩, 0⟩, ⟨⟨0⟩, 1⟩]⟩ := rfl
  intro wiped
  have hassigned : (Network.orderedPair.assigning ⟨0⟩ 1).Reachable :=
    .assign (x := ⟨0⟩) (a := 1) Network.reachable_orderedPair rfl
  have hp : wiped.own.Called := .call _ _ (.ofKind .arc) hassigned
  obtain ⟨state, hstate⟩ : ∃ state, wiped.own = arc state := ⟨_, rfl⟩
  rw [hstate] at hp
  obtain ⟨outcome, state', queued, taken, hanswer', hown, -, hcalls, htaken, -, hempty, hflags, -⟩ :=
    arc_call_drains hp Network.reachable_orderedPair (Network.mayTrigger_none _) (.empty none)
  exact ⟨hanswer, state, hstate, hp, Network.reachable_orderedPair, Network.mayTrigger_none _,
    outcome, state', queued, taken, hanswer', hown, hcalls, htaken, hempty, hflags⟩

end FiniteDomain
