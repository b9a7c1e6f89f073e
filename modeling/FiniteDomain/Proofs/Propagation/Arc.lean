import FiniteDomain.Proofs.Propagation.Revision
/-!
# What arc consistency leaves

The queue runs empty within the steps it is given, so that the loop goes as one without a bound on
them. A call that succeeds leaves every constraint that was due consistent, and one that fails leaves
the queue as empty as it found it.
-/
namespace FiniteDomain.Arc

variable {net : Network} {told : List Solution} {trigger : Option VariableId}
  {before : ArcCounters} {fresh : Nat} {p : Pass ArcState} {id : ConstraintId} {rest : Queue}
  {x : VariableId} {b : Int}

def dequeued (p : Pass ArcState) (rest : Queue) : Pass ArcState :=
  { p with own := { p.own with queue := rest } }

theorem Working.revise (h : Working net told trigger before fresh none p) (hwf : net.WellFormed)
    (hpop : p.own.queue.pop = .ok (some (id, rest))) :
    Ends (revise id) (dequeued p rest)
      (fun _ q => Working net told trigger before fresh none q ∧
        sufficientSteps q + 1 ≤ sufficientSteps p)
      (Broken net told trigger before fresh) := by
  have hlist := Queue.toList_of_pop hpop
  have hlength := Queue.length_of_pop hpop
  obtain ⟨c, hc⟩ := h.queued (hlist ▸ List.mem_cons_self ..)
  let q : Pass ArcState := { p with
    own := ⟨rest, { p.own.counters with revisions := p.own.counters.revisions + 1 }⟩ }
  have hq : Working net told trigger before fresh (some id) q := by
    refine ⟨h.toTracks.of_eq rfl rfl rfl, ⟨h.coherent.of_pop hpop, ?_, h.wipeouts_eq⟩, h.alive,
      h.narrowed, fun hid => h.queued (hlist ▸ List.mem_cons_of_mem _ hid), fun hget hdue => ?_⟩
    · have := h.revisions_le
      change p.own.counters.revisions + 1 + rest.length ≤
        before.revisions + fresh + requeued net p.removed.toList
      rw [hlength] at this
      omega
    · rcases h.settled hget hdue with hid | hid | hcons
      · rw [hlist, List.mem_cons] at hid
        rcases hid with rfl | hid
        · exact .inr (.inl rfl)
        · exact .inl hid
      · cases hid
      · exact .inr (.inr hcons)
  have hc' : q.network.constraints.get? id = some c := by rw [hq.constraints_eq, hc]
  have hsteps : sufficientSteps q + 1 = sufficientSteps p := by
    change rest.length + _ + 1 = p.own.queue.length + _
    rw [hlength]
    exact Nat.add_right_comm ..
  rw [Arc.revise, ends_bind, count, PassM.ends_modifyOwn, ends_bind]
  change Ends (PassM.constraintAt id) q _ _
  rw [PassM.ends_constraintAt hc']
  refine (hq.reviseScope hwf hc).mono ?_ fun _ _ he => he
  intro _ r h
  obtain ⟨hr, hfewer⟩ := h
  exact ⟨hr, by omega⟩

/-- The first constraint of the queue is taken out of it. Its flag has its place and is set. -/
structure Takes (p : Pass ArcState) (id : ConstraintId) (rest : Queue) : Prop where
  pop_eq : p.own.queue.pop = .ok (some (id, rest))
  flagged : p.own.queue.flags.get? id = some true

/-- Constraints are taken from the queue and revised until it is empty or a revision ends early: how
many are taken, and what it ends with. No access of the queue's flags is out of bounds. -/
inductive Drains : Pass ArcState → Nat → EStateM.Result Halt (Pass ArcState) Unit → Prop
  | idle {p : Pass ArcState} : p.own.queue.pop = .ok none → Drains p 0 (.ok () p)
  | halted {p q : Pass ArcState} {id : ConstraintId} {rest : Queue} {h : Halt} :
    Takes p id rest → (revise id).run (dequeued p rest) = .error h q → Drains p 1 (.error h q)
  | revised {p q : Pass ArcState} {id : ConstraintId} {rest : Queue} {taken : Nat}
      {r : EStateM.Result Halt (Pass ArcState) Unit} :
    Takes p id rest → (revise id).run (dequeued p rest) = .ok () q → Drains q taken r →
      Drains p (taken + 1) r

theorem Working.takes (h : Working net told trigger before fresh none p)
    (hpop : p.own.queue.pop = .ok (some (id, rest))) : Takes p id rest :=
  ⟨hpop, h.coherent.get?_flags (Queue.toList_of_pop hpop ▸ List.mem_cons_self)⟩

/-- With enough steps the loop gets to its end: the queue runs empty or a domain does. -/
theorem Working.drain (h : Working net told trigger before fresh none p) (hwf : net.WellFormed)
    {steps : Nat} (hsteps : sufficientSteps p ≤ steps) :
    Ends (drain steps) p
      (fun _ q => (Working net told trigger before fresh none q ∧ q.own.queue.toList = []) ∧
        ∃ taken, Drains p taken (.ok () q))
      (fun h q => Broken net told trigger before fresh h q ∧ ∃ taken, Drains p taken (.error h q)) := by
  induction steps generalizing p with
  | zero =>
    have hlength : p.own.queue.length = 0 := by
      rw [sufficientSteps] at hsteps
      omega
    have hempty : p.own.queue.toList = [] :=
      List.length_eq_zero_iff.mp (p.own.queue.length_toList.trans hlength)
    exact ⟨⟨h, hempty⟩, 0, .idle (Queue.pop_eq_ok_none_iff.mpr hempty)⟩
  | succ steps ih =>
    obtain ⟨popped, hpop⟩ := h.coherent.exists_pop
    rw [Arc.drain, ends_bind, dequeue, ends_bind, ends_get, ends_bind, PassM.ends_demand hpop]
    cases popped with
    | none => exact ⟨⟨h, Queue.pop_eq_ok_none_iff.mp hpop⟩, 0, .idle hpop⟩
    | some popped =>
      obtain ⟨id, rest⟩ := popped
      have htakes := h.takes hpop
      change Ends (Arc.revise id >>= fun _ => Arc.drain steps) (dequeued p rest) _ _
      refine ends_bind.mpr (((h.revise hwf hpop).and (ends_run _ _)).mono ?_ ?_)
      · intro _ q h
        obtain ⟨⟨hq, hfewer⟩, hrun⟩ := h
        apply (ih hq (by omega)).mono
        · intro _ t h
          obtain ⟨ht, taken, hdrains⟩ := h
          exact ⟨ht, taken + 1, .revised htakes hrun hdrains⟩
        · intro halt t h
          obtain ⟨hbroken, taken, hdrains⟩ := h
          exact ⟨hbroken, taken + 1, .revised htakes hrun hdrains⟩
      · intro halt q h
        obtain ⟨hbroken, hrun⟩ := h
        exact ⟨hbroken, 1, .halted htakes hrun⟩

/-- The trigger keeps its assigned value only; it has lost all if that was not current. -/
theorem ends_narrow (hwf : net.WellFormed) (hassigned : net.assigned x = some b)
    (htracks : p.Tracks net told (net.Unsupported (some x))) (halive : net.OutlivedBy p.network)
    (hfresh : (⟨x, b⟩ : Removal) ∉ p.removed.toList) {v : Variable}
    (hv : p.network.vars.get? x = some v) :
    Ends (v.currentDomain.forM fun a => unless a = b do PassM.remove ⟨x, a⟩) p
      (fun _ q => q.Tracks net told (net.Unsupported (some x)) ∧ net.OutlivedBy q.network ∧
        q.own = p.own ∧ (∀ a, q.network.Has x a → a = b) ∧
        ∀ y a, y ≠ x → (q.network.Has y a ↔ p.network.Has y a))
      (fun h q => h = .inconsistent (.emptyDomain x) ∧
        q.Wipes net told (net.Unsupported (some x)) x ∧ q.own = p.own ∧ ¬net.Has x b) := by
  -- The assigned value is not removed here: where the domain ends empty, it was not current before.
  refine (PassM.ends_forM_currentDomain (htracks.wellFormed hwf) hv (fun done q =>
    q.Tracks net told (net.Unsupported (some x)) ∧ net.OutlivedBy q.network ∧ q.own = p.own ∧
      (⟨x, b⟩ : Removal) ∉ q.removed.toList ∧
      (∀ y a, q.network.Has y a → p.network.Has y a) ∧
      (∀ y a, y ≠ x → p.network.Has y a → q.network.Has y a) ∧
      ∀ a ∈ done, q.network.Has x a → a = b) ?_ ?_).mono ?_ fun _ _ h => h
  · exact ⟨htracks, halive, rfl, hfresh, fun _ _ h => h, fun _ _ _ h => h, by simp⟩
  · intro done a q ha h
    obtain ⟨hq, halive', hown, hnot, hsub, hothers, hdone⟩ := h
    by_cases hab : a = b
    · rw [if_pos hab, ends_pure]
      refine ⟨⟨hq, halive', hown, hnot, hsub, hothers, fun d hd hqd => ?_⟩, fun _ _ h => h⟩
      rcases List.mem_append.mp hd with hd | hd
      · exact hdone d hd hqd
      · exact (List.mem_singleton.mp hd).trans hab
    · rw [if_neg hab]
      have hstill (r : Pass ArcState) (hremoved : r.removed = q.removed.push ⟨x, a⟩) :
          (⟨x, b⟩ : Removal) ∉ r.removed.toList := by
        rw [hremoved, Array.toList_push, List.mem_append, List.mem_singleton]
        intro h
        rcases h with hmem | hmem
        · exact hnot hmem
        · exact hab (Removal.mk.inj hmem).2.symm
      refine (hq.remove hwf halive' ha (Network.unsupported_of_ne hassigned hab)).mono ?_ ?_
      · intro _ r h
        obtain ⟨hr, halive'', hnet, hremoved, hown'⟩ := h
        have hiff (y : VariableId) (d : Int) : r.network.Has y d ↔
            q.network.Has y d ∧ (⟨y, d⟩ : Removal) ≠ ⟨x, a⟩ := by
          rw [hnet, Network.has_without_singleton]
        refine ⟨⟨hr, halive'', hown'.trans hown, hstill r hremoved, fun y d hd => ?_,
          fun y d hy hd => ?_, fun d hd hrd => ?_⟩, fun d hd hqd => ?_⟩
        · exact hsub y d ((hiff y d).mp hd).1
        · exact (hiff y d).mpr ⟨hothers y d hy hd, fun he => hy (Removal.mk.inj he).1⟩
        · obtain ⟨hqd, hne⟩ := (hiff x d).mp hrd
          rcases List.mem_append.mp hd with hd | hd
          · exact hdone d hd hqd
          · exact absurd (congrArg (Removal.mk x) (List.mem_singleton.mp hd)) hne
        · exact (hiff x d).mpr ⟨hqd, fun he => hd (Removal.mk.inj he).2⟩
      · intro h r h
        obtain ⟨rfl, hwipes, hremoved, hown'⟩ := h
        refine ⟨rfl, hwipes, hown'.trans hown, fun hb => ?_⟩
        exact hwipes.empty b (hwipes.toTracks.has_iff.mpr ⟨hb, hstill r hremoved⟩)
  · intro _ q h
    obtain ⟨done, hhas, hq, halive', hown, -, hsub, hothers, hdone⟩ := h
    refine ⟨hq, halive', hown, fun a ha => ?_, fun y a hy => ⟨hsub y a, hothers y a hy⟩⟩
    exact hdone a ((hhas a).mpr (hsub x a ha)) ha

theorem working_enqueueAll (hq : p.Tracks net told (net.Unsupported trigger))
    (halive : net.OutlivedBy p.network) (hcoherent : p.own.queue.Coherent)
    (hqueue : p.own.queue.toList = []) (hnarrow : p.network.Respects trigger p.network.Has)
    (hothers : ∀ y a, trigger ≠ some y → (p.network.Has y a ↔ net.Has y a))
    {E : Halt → Pass ArcState → Prop} :
    Ends (enqueueAll (net.affected trigger)) p
      (fun _ q => Working net told trigger p.own.counters (net.affected trigger).length none q) E := by
  have hmem (id : ConstraintId) : id ∈ ((net.affected trigger).foldl Queue.enqueue
      p.own.queue).toList ↔ id ∈ net.affected trigger := by
    rw [hcoherent.mem_enqueueAll, hqueue]
    simp
  rw [enqueueAll, PassM.ends_modifyOwn]
  refine ⟨hq.of_eq rfl rfl rfl, ⟨hcoherent.enqueueAll _, ?_, rfl⟩, halive, hnarrow,
    fun hid => ?_, fun {id c} hc hdue => ?_⟩
  · have hlength := Queue.length_enqueueAll_le p.own.queue (net.affected trigger)
    rw [← p.own.queue.length_toList, hqueue, List.length_nil, Nat.zero_add] at hlength
    exact Nat.le_add_right_of_le (Nat.add_le_add_left hlength _)
  · obtain ⟨c, hc, _⟩ := Network.mem_affected.mp ((hmem _).mp hid)
    exact ⟨c, hc⟩
  · by_cases hlooked : ∀ x, trigger = some x → x ∈ c.scope
    · exact .inl ((hmem id).mpr (Network.mem_affected.mpr ⟨c, hc, hlooked⟩))
    · obtain ⟨x, hx⟩ := not_forall.mp hlooked
      obtain ⟨hx, hnot⟩ := Classical.not_imp.mp hx
      refine .inr (.inr ((Network.consistent_congr ?_ ?_).mpr ((hdue x hx).resolve_left hnot)))
      · refine fun y hy b => hothers y b fun he => hnot ?_
        exact Option.some.inj (hx.symm.trans he) ▸ hy
      · exact fun y _ => hq.assigned_eq y

/-- A call starts with its trigger narrowed and the affected constraints in the queue. -/
theorem ends_start (hwf : net.WellFormed) (hnet : p.network = net)
    (htracks : p.Tracks net told (net.Unsupported trigger))
    (hfresh : ∀ r, r ∉ p.removed.toList) (hcoherent : p.own.queue.Coherent)
    (hqueue : p.own.queue.toList = [])
    (htrigger : ∀ x, trigger = some x → ∃ b, net.assigned x = some b) :
    Ends (start trigger) p
      (fun _ q => Working net told trigger p.own.counters (net.affected trigger).length none q)
      (fun h q => ∃ x, h = .inconsistent (.emptyDomain x) ∧
        q.Wipes net told (net.Unsupported trigger) x ∧ q.own = p.own ∧ trigger = some x ∧
        ∃ b, net.assigned x = some b ∧ ¬net.Has x b) := by
  have halive : net.OutlivedBy p.network := fun {_ a} ha => ⟨a, hnet ▸ ha⟩
  cases trigger with
  | none =>
    rw [start, ends_bind, PassM.ends_constraintIds, hnet]
    refine working_enqueueAll htracks halive hcoherent hqueue ?_ fun y a _ => by rw [hnet]
    intro _ _ _ hx
    cases hx
  | some x =>
    obtain ⟨b, hb⟩ := htrigger x rfl
    obtain ⟨v, hv⟩ := Network.knows_of_assigned hb
    have hvb : v.assignedValue = some b := by rw [← hb, Network.assigned, hv, Option.bind_some]
    have hv' : p.network.vars.get? x = some v := hnet ▸ hv
    rw [start, ends_bind, PassM.ends_variableAt hv', hvb]
    change Ends (PassM.domainValues x >>= fun values => _ >>= fun _ => _) p _ _
    rw [ends_bind, PassM.ends_domainValues hv']
    refine ((ends_narrow hwf hb htracks halive (hfresh _) hv').mono ?_ ?_) |> ends_bind.mpr
    · intro _ q h
      obtain ⟨hq, halive', hown, hnarrow, hothers⟩ := h
      have hindex : q.network.containing.get? x = some (net.mentioning x) := by
        rw [hq.containing_eq, hwf.containing_of_knows ⟨v, hv⟩]
      rw [← hown] at hcoherent hqueue ⊢
      rw [ends_bind, PassM.ends_constraintsContaining hindex]
      refine working_enqueueAll hq halive' hcoherent hqueue ?_ fun y a hy => ?_
      · intro y a d hy hassigned ha
        cases hy
        rw [hq.assigned_eq, hb] at hassigned
        exact (hnarrow a ha).trans (Option.some.inj hassigned)
      · rw [hothers y a fun he => hy (he ▸ rfl), hnet]
    · intro h q h
      obtain ⟨rfl, hwipes, hown, hnot⟩ := h
      exact ⟨x, rfl, hwipes, hown, rfl, b, hb, hnot⟩

/-- A domain was emptied, and the queue is empty. It counts as a wipeout unless the trigger lost
its domain at the start, to a value assigned that was not current. -/
structure Wiped (net : Network) (told : List Solution) (trigger : Option VariableId)
    (before : ArcCounters) (x : VariableId) (p : Pass ArcState) : Prop
    extends p.Wipes net told (net.Unsupported trigger) x where
  coherent : p.own.queue.Coherent
  queue_eq : p.own.queue.toList = []
  revisions_le : p.own.counters.revisions ≤
    before.revisions + (net.affected trigger).length + requeued net p.removed.toList
  wipeouts_eq : p.own.counters.wipeouts = before.wipeouts + 1 ∨
    p.own.counters.wipeouts = before.wipeouts ∧ trigger = some x ∧
      ∃ b, net.assigned x = some b ∧ ¬net.Has x b

/-- The pass once the queue was cleared for the empty domain of `x`. -/
def wipedOut (p : Pass ArcState) (x : VariableId) : Pass ArcState :=
  { p with
    journal := p.journal.record (.queueCleared x)
    own := ⟨p.own.queue.cleared, { p.own.counters with wipeouts := p.own.counters.wipeouts + 1 }⟩ }

theorem ends_clearQueue (h : p.own.queue.Coherent) {Q : PUnit → Pass ArcState → Prop}
    {E : Halt → Pass ArcState → Prop} :
    Ends clearQueue p Q E ↔ Q ⟨⟩ { p with own := { p.own with queue := p.own.queue.cleared } } := by
  rw [clearQueue, ends_bind, ends_get, ends_bind, PassM.ends_demand h.clear_eq,
    PassM.ends_modifyOwn]

theorem ends_onHalt (h : p.own.queue.Coherent) {Q : PUnit → Pass ArcState → Prop}
    {E : Halt → Pass ArcState → Prop} :
    Ends (onHalt (.inconsistent (.emptyDomain x))) p Q E ↔
      E (.inconsistent (.emptyDomain x)) (wipedOut p x) := by
  let q : Pass ArcState := { p with journal := p.journal.record (.queueCleared x) }
  change Ends (clearQueue >>= fun _ => count _ >>= fun _ => throw _) q Q E ↔ _
  rw [ends_bind, ends_clearQueue (p := q) h]
  rfl

theorem run_onHalt (h : p.own.queue.Coherent) :
    (onHalt (.inconsistent (.emptyDomain x))).run p =
      .error (.inconsistent (.emptyDomain x)) (wipedOut p x) := by
  have hends : Ends (onHalt (.inconsistent (.emptyDomain x))) p (fun _ _ => False)
      fun halt q => halt = .inconsistent (.emptyDomain x) ∧ q = wipedOut p x :=
    (ends_onHalt h).mpr ⟨rfl, rfl⟩
  unfold Ends at hends
  split at hends
  · exact hends.elim
  · next hrun =>
    obtain ⟨rfl, rfl⟩ := hends
    exact hrun

theorem Broken.onHalt {h : Halt} (hbroken : Broken net told trigger before
    (net.affected trigger).length h p) {Q : PUnit → Pass ArcState → Prop} :
    Ends (onHalt h) p Q
      (fun h q => ∃ x, h = .inconsistent (.emptyDomain x) ∧ Wiped net told trigger before x q) := by
  obtain ⟨x, rfl, hwipes⟩ := hbroken.wiped
  have hnote : (p.journal.record (.queueCleared x)).solutions = told := by
    rw [Journal.solutions_record, hwipes.solutions_eq]
  rw [ends_onHalt hbroken.coherent]
  refine ⟨x, rfl, ⟨⟨hwipes.network_eq, hwipes.records, hwipes.justified, hnote⟩, hwipes.last,
    hwipes.empty, hwipes.others⟩, hbroken.coherent.cleared, rfl, ?_, .inl ?_⟩
  · have := hbroken.revisions_le
    change p.own.counters.revisions ≤ before.revisions + (net.affected trigger).length +
      requeued net p.removed.toList
    omega
  · exact congrArg (· + 1) hbroken.wipeouts_eq

/-- A call that ends well leaves every due constraint consistent; either way the queue is empty. -/
theorem ends_pass (hwf : net.WellFormed) (hnet : p.network = net)
    (htracks : p.Tracks net told (net.Unsupported trigger))
    (hfresh : ∀ r, r ∉ p.removed.toList) (hcoherent : p.own.queue.Coherent)
    (hqueue : p.own.queue.toList = [])
    (htrigger : ∀ x, trigger = some x → ∃ b, net.assigned x = some b) :
    Ends (pass trigger) p
      (fun _ q => Working net told trigger p.own.counters (net.affected trigger).length none q ∧
        q.own.queue.toList = [])
      (fun h q => ∃ x, h = .inconsistent (.emptyDomain x) ∧
        Wiped net told trigger p.own.counters x q) := by
  rw [pass, ends_bind, ends_get, if_pos (Queue.isEmpty_eq_true_iff.mpr hqueue)]
  refine ((ends_start hwf hnet htracks hfresh hcoherent hqueue htrigger).mono ?_ ?_)
    |> ends_bind.mpr
  · intro _ q hq
    rw [ends_bind, ends_get, ends_tryCatch]
    exact (hq.drain hwf (Nat.le_refl _)).mono (fun _ _ h => h.1) fun _ _ h => h.1.onHalt
  · intro h q h
    obtain ⟨x, rfl, hwipes, hown, hstart⟩ := h
    refine ⟨x, rfl, hwipes, hown ▸ hcoherent, hown ▸ hqueue, ?_, .inr ⟨by rw [hown], hstart⟩⟩
    rw [hown]
    omega

theorem isConsistent_eq_ok_true_iff (hwf : net.WellFormed) :
    isConsistent net = .ok true ↔
      ∀ id c, net.constraints.get? id = some c → net.Consistent c := by
  rw [isConsistent, allM_eq_ok_true]
  have hscope {c : Constraint} (hfits : c.Fits net) :
      (c.scope.allM fun x => do
        (← net.variableAt x).currentDomain.allM (c.hasSupport net.vars x)) = .ok true ↔
        net.Consistent c := by
    rw [allM_eq_ok_true]
    constructor
    · intro h x a hx ha
      obtain ⟨v, hv, ha⟩ := ha
      obtain ⟨found, hfound, hiff⟩ := Constraint.hasSupport_eq_ok hfits x a
      obtain ⟨w, hw, hall⟩ := bind_eq_ok.mp (h x hx)
      obtain rfl : v = w := Except.ok.inj ((Store.fetch_of_get? hv).symm.trans hw)
      have htrue := allM_eq_ok_true.mp hall a (Variable.mem_currentDomain.mpr ha)
      rw [hfound] at htrue
      exact hiff.mp (Except.ok.inj htrue)
    · intro h x hx
      obtain ⟨v, hv⟩ := hfits.known x hx
      refine bind_eq_ok.mpr ⟨v, Store.fetch_of_get? hv, allM_eq_ok_true.mpr fun a ha => ?_⟩
      obtain ⟨found, hfound, hiff⟩ := Constraint.hasSupport_eq_ok hfits x a
      rw [hfound, hiff.mpr (h hx ⟨v, hv, Variable.mem_currentDomain.mp ha⟩)]
  constructor
  · intro h id c hc
    exact (hscope (hwf.fits hc)).mp (h c (Store.mem_toList.mpr ⟨id, hc⟩))
  · intro h c hc
    obtain ⟨id, hc⟩ := Store.mem_toList.mp hc
    exact (hscope (hwf.fits hc)).mpr (h id c hc)

end FiniteDomain.Arc
