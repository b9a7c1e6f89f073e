import FiniteDomain.Propagation.Arc
import FiniteDomain.Proofs.Network.Family
import FiniteDomain.Proofs.Propagation.Pass
import FiniteDomain.Proofs.Propagation.Queue
import Mathlib.Algebra.GroupWithZero.Nat
/-!
# Revisions

What holds while constraints are revised from the queue: only unsupported values have gone, and a
constraint that is due and not consistent is in the queue. A revision keeps this, and keeps the
number of revisions still to come in bounds.
-/
namespace FiniteDomain

/-- The constraint is looked at in a call with this trigger, or needs no look. -/
def Network.Due (net : Network) (trigger : Option VariableId) (c : Constraint) : Prop :=
  ∀ x, trigger = some x → x ∈ c.scope ∨ net.Consistent c

namespace Arc

/-- For some removals, how many constraints they can queue. -/
def requeued (net : Network) (rs : List Removal) : Nat :=
  (rs.map fun r => (net.mentioning r.var).length).sum

/-- The queue and the counters after a call that had `fresh` constraints to start from. -/
structure Tally (net : Network) (before : ArcCounters) (fresh : Nat) (p : Pass ArcState) : Prop where
  coherent : p.own.queue.Coherent
  revisions_le : p.own.counters.revisions + p.own.queue.length ≤
    before.revisions + fresh + requeued net p.removed.toList
  wipeouts_eq : p.own.counters.wipeouts = before.wipeouts

/-- What holds between any two steps; the constraint under revision is `current`. -/
structure Working (net : Network) (told : List Solution) (trigger : Option VariableId)
    (before : ArcCounters) (fresh : Nat) (current : Option ConstraintId) (p : Pass ArcState) : Prop
    extends p.Tracks net told (net.Unsupported trigger), Tally net before fresh p where
  alive : net.OutlivedBy p.network
  narrowed : p.network.Respects trigger p.network.Has
  queued : ∀ {id}, id ∈ p.own.queue.toList → ∃ c, net.constraints.get? id = some c
  settled : ∀ {id c}, net.constraints.get? id = some c → net.Due trigger c →
    id ∈ p.own.queue.toList ∨ current = some id ∨ p.network.Consistent c

/-- A removal has emptied a domain. -/
structure Broken (net : Network) (told : List Solution) (trigger : Option VariableId)
    (before : ArcCounters) (fresh : Nat) (h : Halt) (p : Pass ArcState) : Prop
    extends Tally net before fresh p where
  wiped : ∃ x, h = .inconsistent (.emptyDomain x) ∧
    p.Wipes net told (net.Unsupported trigger) x

variable {net : Network} {told : List Solution} {trigger : Option VariableId}
  {before : ArcCounters} {fresh : Nat} {current : Option ConstraintId} {p q : Pass ArcState}
  {c : Constraint} {id : ConstraintId} {x : VariableId} {a : Int}

theorem requeued_append (net : Network) (rs rs' : List Removal) :
    requeued net (rs ++ rs') = requeued net rs + requeued net rs' := by
  simp [requeued]

theorem sufficientSteps_congr (hnet : q.network = p.network) (hqueue : q.own.queue = p.own.queue) :
    sufficientSteps q = sufficientSteps p := by
  rw [sufficientSteps, sufficientSteps, hnet, hqueue]

theorem Working.countCheck (h : Working net told trigger before fresh current p)
    {E : Halt → Pass ArcState → Prop} :
    Ends (count fun n => { n with supportChecks := n.supportChecks + 1 }) p
      (fun _ q => Working net told trigger before fresh current q ∧ q.network = p.network ∧
        q.own.queue = p.own.queue) E :=
  ⟨⟨h.toTracks.of_eq rfl rfl rfl, ⟨h.coherent, h.revisions_le, h.wipeouts_eq⟩, h.alive, h.narrowed,
    h.queued, h.settled⟩, rfl, rfl⟩

theorem load_eq (hwf : net.WellFormed) {v : Variable} (hv : net.vars.get? x = some v) :
    load net x = v.size * (net.mentioning x).length := by
  rw [load, hv, hwf.containing_of_knows ⟨v, hv⟩]

private theorem load_without_self (hwf : net.WellFormed) (ha : net.Has x a) :
    load (net.without [⟨x, a⟩]) x + (net.mentioning x).length = load net x := by
  obtain ⟨v, hv, ha⟩ := ha
  have hgone : (fun b => [(⟨x, a⟩ : Removal)].contains ⟨x, b⟩) = fun b => b == a := by
    funext b
    rw [Bool.eq_iff_iff]
    simp
  have hget : (net.without [⟨x, a⟩]).vars.get? x = some (v.without (· == a)) := by
    rw [Network.get?_without, hv, Option.map_some, hgone]
  rw [load_eq (hwf.without _) hget, load_eq hwf hv, ← Variable.size_without (hwf.domains hv) ha,
    Nat.add_mul, Nat.one_mul]
  rfl

private theorem load_without_of_ne (hwf : net.WellFormed) {y : VariableId} (hy : y ≠ x) (a : Int) :
    load (net.without [⟨x, a⟩]) y = load net y := by
  have hget : (net.without [⟨x, a⟩]).vars.get? y = net.vars.get? y := by
    rw [Network.get?_without]
    cases hv : net.vars.get? y with
    | none => rfl
    | some v =>
      have hgone : (fun b => [(⟨x, a⟩ : Removal)].contains ⟨y, b⟩) = fun _ => false := by
        funext b
        simp [hy]
      rw [Option.map_some, hgone, (hwf.domains hv).without_none]
  rw [load, load, hget, Network.containing_without]

theorem totalLoad_without (hwf : net.WellFormed) (ha : net.Has x a) {xs : List VariableId}
    (hnodup : xs.Nodup) : totalLoad (net.without [⟨x, a⟩]) xs +
      (if x ∈ xs then (net.mentioning x).length else 0) = totalLoad net xs := by
  induction xs with
  | nil => rfl
  | cons y xs ih =>
    obtain ⟨hy, hxs⟩ := List.nodup_cons.mp hnodup
    have hrest := ih hxs
    rw [totalLoad, totalLoad]
    by_cases hyx : y = x
    · subst hyx
      have hself := load_without_self hwf ha
      rw [if_neg hy] at hrest
      rw [if_pos (by simp)]
      omega
    · have hne := load_without_of_ne hwf hyx a
      have hmem : x ∈ y :: xs ↔ x ∈ xs := by simp [Ne.symm hyx]
      simp only [hmem]
      omega

/-- After a removal, the constraints of its variable can be queued within the steps there were. -/
private theorem length_add_totalLoad_le (hwf : p.network.WellFormed) (ha : p.network.Has x a)
    {queue : Queue} (hqueue : queue.length ≤ p.own.queue.length + (p.network.mentioning x).length) :
    queue.length + totalLoad (p.network.without [⟨x, a⟩]) (p.network.without [⟨x, a⟩]).vars.keys ≤
      sufficientSteps p := by
  have hload := totalLoad_without hwf ha p.network.vars.nodup_keys
  have hx : x ∈ p.network.vars.keys := Store.mem_keys.mpr ha.knows
  have hkeys : (p.network.without [⟨x, a⟩]).vars.keys = p.network.vars.keys :=
    Store.keys_congr (Network.size_vars_without ..)
  rw [if_pos hx] at hload
  rw [hkeys, sufficientSteps]
  omega

private theorem requeued_push (net : Network) (removed : Array Removal) (r : Removal) :
    requeued net (removed.push r).toList =
      requeued net removed.toList + (net.mentioning r.var).length := by
  rw [Array.toList_push, requeued_append]
  rfl

theorem Working.strike (h : Working net told trigger before fresh current p) (hwf : net.WellFormed)
    (ha : p.network.Has x a) (hunsupported : net.Unsupported trigger ⟨x, a⟩) :
    Ends (do PassM.remove ⟨x, a⟩; enqueueAll (← PassM.constraintsContaining x)) p
      (fun _ q => Working net told trigger before fresh current q ∧
        (∀ y b, (⟨y, b⟩ : Removal) ≠ ⟨x, a⟩ → (q.network.Has y b ↔ p.network.Has y b)) ∧
        sufficientSteps q ≤ sufficientSteps p ∧
        ∀ id, id ∈ net.mentioning x ∨ id ∈ p.own.queue.toList → id ∈ q.own.queue.toList)
      (Broken net told trigger before fresh) := by
  have hrevisions := h.revisions_le
  refine (h.toTracks.remove hwf h.alive ha hunsupported).mono ?_ ?_ |> ends_bind.mpr
  · intro _ q h
    obtain ⟨hq, halive, hnet, hremoved, hown⟩ := h
    have hindex : q.network.containing.get? x = some (net.mentioning x) := by
      rw [hq.containing_eq, hwf.containing_of_knows (h.toTracks.knows_iff.mp ha.knows)]
    have hsame : ∀ y b, (⟨y, b⟩ : Removal) ≠ ⟨x, a⟩ → (q.network.Has y b ↔ p.network.Has y b) := by
      intro y b hne
      rw [hnet, Network.has_without_singleton]
      exact and_iff_left hne
    have hassigned (y : VariableId) : q.network.assigned y = p.network.assigned y :=
      (hq.assigned_eq y).trans (h.toTracks.assigned_eq y).symm
    have hcoherent : q.own.queue.Coherent := hown ▸ h.coherent
    have hmem (id : ConstraintId) :
        id ∈ ((net.mentioning x).foldl Queue.enqueue q.own.queue).toList ↔
          id ∈ net.mentioning x ∨ id ∈ p.own.queue.toList := by
      rw [hcoherent.mem_enqueueAll, hown]
    have hlength := Queue.length_enqueueAll_le q.own.queue (net.mentioning x)
    rw [ends_bind, PassM.ends_constraintsContaining hindex, enqueueAll, PassM.ends_modifyOwn]
    refine ⟨⟨hq.of_eq rfl rfl rfl, ⟨hcoherent.enqueueAll _, ?_, hown ▸ h.wipeouts_eq⟩, halive, ?_, ?_,
      ?_⟩, hsame, ?_, fun id hid => (hmem id).mpr hid⟩
    · rw [hown] at hlength
      rw [hown, hremoved, requeued_push]
      dsimp only
      omega
    · intro y b d hy hb hd
      rw [hassigned] at hb
      rw [hnet, Network.has_without_singleton] at hd
      exact h.narrowed hy hb hd.1
    · intro id hid
      rcases (hmem id).mp hid with hid | hid
      · obtain ⟨c, hc, _⟩ := Network.mem_mentioning.mp hid
        exact ⟨c, hc⟩
      · exact h.queued hid
    -- a constraint that the removal may unsettle has `x` in its scope, and is queued now
    · intro id c hc hdue
      by_cases hx : x ∈ c.scope
      · exact .inl ((hmem id).mpr (.inl (Network.mem_mentioning.mpr ⟨c, hc, hx⟩)))
      · rcases h.settled hc hdue with hid | hid | hcons
        · exact .inl ((hmem id).mpr (.inr hid))
        · exact .inr (.inl hid)
        · refine .inr (.inr ((Network.consistent_congr ?_ fun y _ => hassigned y).mpr hcons))
          exact fun y hy b => hsame y b fun he => hx ((Removal.mk.inj he).1 ▸ hy)
    · rw [hown, ← h.toTracks.mentioning_eq] at hlength
      have hsteps := length_add_totalLoad_le (h.toTracks.wellFormed hwf) ha hlength
      rw [← hnet, h.toTracks.mentioning_eq, ← hown] at hsteps
      exact hsteps
  · intro halt q h
    obtain ⟨rfl, hwipes, hremoved, hown⟩ := h
    refine ⟨⟨hown ▸ h.coherent, ?_, hown ▸ h.wipeouts_eq⟩, x, rfl, hwipes⟩
    rw [hown, hremoved, requeued_push]
    omega

theorem Working.reviseValue (h : Working net told trigger before fresh (some id) p)
    (hwf : net.WellFormed) (hc : net.constraints.get? id = some c) (hx : x ∈ c.scope)
    (ha : p.network.Has x a) :
    Ends (reviseValue c x a) p
      (fun _ q => Working net told trigger before fresh (some id) q ∧
        (∀ b, b ≠ a → (q.network.Has x b ↔ p.network.Has x b)) ∧
        sufficientSteps q ≤ sufficientSteps p ∧
        (id ∈ p.own.queue.toList → id ∈ q.own.queue.toList) ∧
        (id ∈ q.own.queue.toList ∨
          q.network = p.network ∧ c.Supports (p.network.Choice p.network.Has) x a))
      (Broken net told trigger before fresh) := by
  rw [Arc.reviseValue]
  refine h.countCheck.bind ?_
  intro _ q h
  obtain ⟨hq, hnet, hqueue⟩ := h
  rw [← hnet] at ha
  have hc' : q.network.constraints.get? id = some c := by rw [hq.toTracks.constraints_eq, hc]
  obtain ⟨found, hfound, hiff⟩ :=
    Constraint.hasSupport_eq_ok ((hq.toTracks.wellFormed hwf).fits hc') x a
  rw [ends_bind, PassM.ends_vars, ends_bind, PassM.ends_demand hfound]
  by_cases hsupported : found = true
  · rw [if_pos hsupported, ends_pure]
    refine ⟨hq, fun b _ => by rw [hnet], Nat.le_of_eq (sufficientSteps_congr hnet hqueue), ?_, ?_⟩
    · rw [hqueue]
      exact fun hid => hid
    · exact .inr ⟨hnet, hnet ▸ hiff.mp hsupported⟩
  · rw [if_neg hsupported]
    have hnot := mt hiff.mpr hsupported
    have hunsupported : net.Unsupported trigger ⟨x, a⟩ := by
      rw [hq.network_eq] at hnot
      exact Network.unsupported_of_not_supports hq.justified hc hx hnot
    refine (hq.strike hwf ha hunsupported).mono ?_ fun _ _ he => he
    intro _ r h
    obtain ⟨hr, hsame, hsteps, hmem⟩ := h
    have hid : id ∈ r.own.queue.toList := hmem id (.inl (Network.mem_mentioning.mpr ⟨c, hc, hx⟩))
    refine ⟨hr, fun b hb => ?_, ?_, fun _ => hid, .inl hid⟩
    · rw [hsame x b fun he => hb (Removal.mk.inj he).2, hnet]
    · rw [← sufficientSteps_congr hnet hqueue]
      exact hsteps

theorem Working.reviseVariable (h : Working net told trigger before fresh (some id) p)
    (hwf : net.WellFormed) (hc : net.constraints.get? id = some c) (hx : x ∈ c.scope) :
    Ends (reviseVariable c x) p
      (fun _ q => Working net told trigger before fresh (some id) q ∧
        sufficientSteps q ≤ sufficientSteps p ∧
        (id ∈ p.own.queue.toList → id ∈ q.own.queue.toList) ∧
        (id ∈ q.own.queue.toList ∨ q.network = p.network ∧
          ∀ a, p.network.Has x a → c.Supports (p.network.Choice p.network.Has) x a))
      (Broken net told trigger before fresh) := by
  obtain ⟨v, hv⟩ := h.toTracks.knows_iff.mpr ((hwf.fits hc).known x hx)
  rw [Arc.reviseVariable, ends_bind, PassM.ends_domainValues hv]
  -- The first removal puts the constraint back into the queue, where it stays; up to then nothing has
  -- changed and every value gone through has its support.
  refine (PassM.ends_forM_currentDomain (h.toTracks.wellFormed hwf) hv (fun done q =>
    Working net told trigger before fresh (some id) q ∧ sufficientSteps q ≤ sufficientSteps p ∧
      (id ∈ p.own.queue.toList → id ∈ q.own.queue.toList) ∧
      (id ∈ q.own.queue.toList ∨ q.network = p.network ∧
        ∀ a ∈ done, c.Supports (p.network.Choice p.network.Has) x a)) ?_ ?_).mono ?_ fun _ _ h => h
  · exact ⟨h, Nat.le_refl _, fun hid => hid, .inr ⟨rfl, by simp⟩⟩
  · intro done a q ha h
    obtain ⟨hq, hsteps, hkept, hdone⟩ := h
    refine (hq.reviseValue hwf hc hx ha).mono ?_ fun _ _ he => he
    intro _ r h
    obtain ⟨hr, hsame, hfewer, hkept', hsupport⟩ := h
    refine ⟨⟨hr, Nat.le_trans hfewer hsteps, fun hid => hkept' (hkept hid), ?_⟩,
      fun b hb => (hsame b hb).mpr⟩
    rcases hsupport with hid | ⟨hnet, hsupport⟩
    · exact .inl hid
    · rcases hdone with hid | ⟨hnet', hdone⟩
      · exact .inl (hkept' hid)
      · rw [hnet'] at hnet hsupport
        refine .inr ⟨hnet, fun b hb => ?_⟩
        rcases List.mem_append.mp hb with hb | hb
        · exact hdone b hb
        · exact List.mem_singleton.mp hb ▸ hsupport
  · intro _ q h
    obtain ⟨done, hhas, hq, hsteps, hkept, hdone⟩ := h
    refine ⟨hq, hsteps, hkept, hdone.imp_right ?_⟩
    intro h
    obtain ⟨hnet, hdone⟩ := h
    exact ⟨hnet, fun a ha => hdone a ((hhas a).mpr ha)⟩

/-- A scope is gone through with the constraint back in the queue or every value supported. -/
theorem Working.reviseScope (h : Working net told trigger before fresh (some id) p)
    (hwf : net.WellFormed) (hc : net.constraints.get? id = some c) :
    Ends (c.scope.forM (Arc.reviseVariable c)) p
      (fun _ q => Working net told trigger before fresh none q ∧
        sufficientSteps q ≤ sufficientSteps p)
      (Broken net told trigger before fresh) := by
  refine (ends_forM (fun done (q : Pass ArcState) =>
    Working net told trigger before fresh (some id) q ∧ sufficientSteps q ≤ sufficientSteps p ∧
      (id ∈ q.own.queue.toList ∨ q.network = p.network ∧ ∀ x ∈ done, ∀ a, p.network.Has x a →
        c.Supports (p.network.Choice p.network.Has) x a)) ?_ ?_).mono ?_ fun _ _ h => h
  · exact ⟨h, Nat.le_refl _, .inr ⟨rfl, by simp⟩⟩
  · intro done x rest q hsplit h
    obtain ⟨hq, hsteps, hdone⟩ := h
    refine (hq.reviseVariable hwf hc (hsplit ▸ by simp)).mono ?_ fun _ _ he => he
    intro _ r h
    obtain ⟨hr, hfewer, hkept, hsupport⟩ := h
    refine ⟨hr, Nat.le_trans hfewer hsteps, ?_⟩
    rcases hsupport with hid | ⟨hnet, hsupport⟩
    · exact .inl hid
    · rcases hdone with hid | ⟨hnet', hdone⟩
      · exact .inl (hkept hid)
      · rw [hnet'] at hnet hsupport
        refine .inr ⟨hnet, fun y hy => ?_⟩
        rcases List.mem_append.mp hy with hy | hy
        · exact hdone y hy
        · exact List.mem_singleton.mp hy ▸ hsupport
  · intro _ q h
    obtain ⟨hq, hsteps, hdone⟩ := h
    refine ⟨⟨hq.toTracks, hq.toTally, hq.alive, hq.narrowed, hq.queued, fun hc' hdue => ?_⟩, hsteps⟩
    rcases hq.settled hc' hdue with hid | hid | hcons
    · exact .inl hid
    · cases hid
      cases hc.symm.trans hc'
      refine hdone.imp_right fun ⟨hnet, hdone⟩ => .inr ?_
      rw [hnet]
      exact fun {x a} hx ha => hdone x hx a ha
    · exact .inr (.inr hcons)

end Arc

end FiniteDomain
