import FiniteDomain.Propagation.Forward
import FiniteDomain.Proofs.Network.Scope
import FiniteDomain.Proofs.Propagation.Pass
/-!
# What forward checking removes

A value goes exactly when some examined constraint leaves its variable alone unassigned and is not
satisfied by it next to the assigned values. What is tried for a probe is taken back.
-/
namespace FiniteDomain

/-- A call with this trigger looks at the constraint. -/
def Network.Examines (net : Network) (trigger : Option VariableId) (c : Constraint) : Prop :=
  (∃ id, net.constraints.get? id = some c) ∧ ∀ x, trigger = some x → x ∈ c.scope

/-- The assigned values with `a` in the place of `x`. -/
def Network.trial (net : Network) (x : VariableId) (a : Int) (y : VariableId) : Option Int :=
  if y = x then some a else net.assigned y

/-- Some examined constraint with no other unassigned variable is not satisfied by the value. -/
def Network.Unfit (net : Network) (trigger : Option VariableId) (r : Removal) : Prop :=
  ∃ c, net.Examines trigger c ∧ net.pending c = [r.var] ∧ ¬c.SatisfiedBy (net.trial r.var r.value)

theorem Network.not_unfit_of_assigned {net : Network} {trigger : Option VariableId}
    {x : VariableId} {a b : Int} (hx : net.assigned x = some b) : ¬net.Unfit trigger ⟨x, a⟩ := by
  intro h
  obtain ⟨c, -, hpending, -⟩ := h
  have hmem : x ∈ net.pending c := by
    rw [hpending]
    exact List.mem_singleton.mpr rfl
  rw [(mem_pending.mp hmem).2] at hx
  cases hx

namespace Forward

variable {p : Pass ForwardCounters} {net : Network} {told : List Solution} {c : Constraint}
  {id : ConstraintId} {x : VariableId} {a : Int} {E : Halt → Pass ForwardCounters → Prop}

/-- A probe says whether the value satisfies the constraint, and leaves no trace. -/
theorem ends_probe (hwf : p.network.WellFormed) (hc : p.network.constraints.get? id = some c)
    (hpending : p.network.pending c = [x]) (ha : p.network.Has x a) :
    Ends (probe c x a) p (fun found q => q = p ∧ (found = true ↔ c.SatisfiedBy (p.network.trial x a)))
      E := by
  have hassigned : (p.network.assigning x a).assigned = p.network.trial x a := by
    funext y
    exact Network.assigned_assigning ha.knows
  have hfits : c.Fits (p.network.assigning x a) := (hwf.assigning x a).fits hc
  obtain ⟨values, hvalues, hiff⟩ := Constraint.assignedValues_eq_ok hfits
  obtain ⟨t, ht⟩ : ∃ t, List.Forall₂ (fun y b => p.network.trial x a y = some b) c.scope t := by
    apply exists_forall₂
    intro y hy
    by_cases hyx : y = x
    · exact ⟨a, if_pos hyx⟩
    · have hne : p.network.assigned y ≠ none := by
        intro hnone
        have hmem := Network.mem_pending.mpr ⟨hy, hnone⟩
        rw [hpending] at hmem
        exact hyx (List.mem_singleton.mp hmem)
      obtain ⟨b, hb⟩ := Option.ne_none_iff_exists'.mp hne
      exact ⟨b, (if_neg hyx).trans hb⟩
  rw [hassigned] at hiff
  rw [probe, ends_bind, PassM.ends_assign ha, ends_bind, PassM.ends_vars, ends_bind,
    PassM.ends_demand hvalues, ends_bind, PassM.ends_unassign ha.knows rfl, ends_pure]
  refine ⟨rfl, ?_⟩
  rw [(hiff t).mpr ht, Constraint.satisfiedBy_iff_mem ht]
  rfl

theorem ends_tryValue {trigger : Option VariableId} (hwf : net.WellFormed)
    (htracks : p.Tracks net told (net.Unfit trigger)) (halive : net.OutlivedBy p.network)
    (hexamines : net.Examines trigger c) (hpending : net.pending c = [x])
    (ha : p.network.Has x a) :
    Ends (tryValue c x a) p
      (fun _ q => (q.Tracks net told (net.Unfit trigger) ∧ net.OutlivedBy q.network) ∧
        (q.network.Has x a → c.SatisfiedBy (net.trial x a)) ∧
        ∀ y b, (⟨y, b⟩ : Removal) ≠ ⟨x, a⟩ → (q.network.Has y b ↔ p.network.Has y b))
      (fun h q => h = .inconsistent (.emptyDomain x) ∧ q.Wipes net told (net.Unfit trigger) x) := by
  obtain ⟨id, hc⟩ := hexamines.1
  rw [tryValue]
  refine (htracks.modifyOwn _).bind ?_
  intro _ q h
  obtain ⟨htracks, hnet, -, -⟩ := h
  rw [← hnet] at ha halive ⊢
  have hc' : q.network.constraints.get? id = some c := by rw [htracks.constraints_eq, hc]
  have hpending' : q.network.pending c = [x] := by
    rw [← hpending]
    exact Network.pending_congr fun y _ => htracks.assigned_eq y
  have htrial : q.network.trial x a = net.trial x a := by
    funext y
    rw [Network.trial, Network.trial, htracks.assigned_eq]
  refine (ends_probe (htracks.wellFormed hwf) hc' hpending' ha).bind ?_
  intro found q h
  obtain ⟨rfl, hfound⟩ := h
  rw [htrial] at hfound
  by_cases hsat : found = true
  · rw [if_pos hsat, ends_pure]
    exact ⟨⟨htracks, halive⟩, fun _ => hfound.mp hsat, fun _ _ _ => Iff.rfl⟩
  · rw [if_neg hsat]
    have hunfit : net.Unfit trigger ⟨x, a⟩ := ⟨c, hexamines, hpending, mt hfound.mpr hsat⟩
    refine (htracks.remove hwf halive ha hunfit).mono ?_ ?_
    · intro _ q h
      obtain ⟨hq, halive', hnet, -, -⟩ := h
      refine ⟨⟨hq, halive'⟩, fun hb => ?_, fun y b hne => ?_⟩
      · rw [hnet, Network.has_without_singleton] at hb
        exact absurd rfl hb.2
      · rw [hnet, Network.has_without_singleton]
        exact and_iff_left hne
    · intro h q h
      obtain ⟨rfl, hwipes, -⟩ := h
      exact ⟨rfl, hwipes⟩

theorem ends_tryLast {trigger : Option VariableId} (hwf : net.WellFormed)
    (htracks : p.Tracks net told (net.Unfit trigger)) (halive : net.OutlivedBy p.network)
    (hexamines : net.Examines trigger c) (hx : net.pending c = [x]) :
    Ends (tryLast c) p
      (fun _ q => (q.Tracks net told (net.Unfit trigger) ∧ net.OutlivedBy q.network) ∧
        (∀ a, q.network.Has x a → c.SatisfiedBy (net.trial x a)) ∧
        ∀ y b, q.network.Has y b → p.network.Has y b)
      (fun h q => h = .inconsistent (.emptyDomain x) ∧ q.Wipes net told (net.Unfit trigger) x) := by
  obtain ⟨id, hc⟩ := hexamines.1
  have hc' : p.network.constraints.get? id = some c := by rw [htracks.constraints_eq, hc]
  have hfits := (htracks.wellFormed hwf).fits hc'
  have hpending : p.network.pending c = [x] := by
    rw [← hx]
    exact Network.pending_congr fun y _ => htracks.assigned_eq y
  have hxmem : x ∈ c.scope := (Network.mem_pending.mp (hx ▸ List.mem_singleton.mpr rfl)).1
  obtain ⟨v, hv⟩ := hfits.known x hxmem
  rw [tryLast, ends_bind, PassM.ends_vars, ends_bind,
    PassM.ends_demand (Constraint.unassigned_eq_ok hfits), hpending]
  refine (htracks.modifyOwn _).bind ?_
  intro _ q h
  obtain ⟨htracks, hnet, -, -⟩ := h
  rw [← hnet] at hv halive ⊢
  rw [ends_bind, PassM.ends_domainValues hv]
  refine (PassM.ends_forM_currentDomain (htracks.wellFormed hwf) hv (fun done r =>
    (r.Tracks net told (net.Unfit trigger) ∧ net.OutlivedBy r.network) ∧
      (∀ a ∈ done, r.network.Has x a → c.SatisfiedBy (net.trial x a)) ∧
      ∀ y b, r.network.Has y b → q.network.Has y b) ?_ ?_).mono ?_ fun _ _ h => h
  · exact ⟨⟨htracks, halive⟩, by simp, fun _ _ h => h⟩
  · intro done a r ha h
    obtain ⟨⟨hr, halive'⟩, hdone, hsub⟩ := h
    refine (ends_tryValue hwf hr halive' hexamines hx ha).mono ?_ fun _ _ h => h
    intro _ s h
    obtain ⟨hs, hsat, hsame⟩ := h
    have hstays {b : Int} (hb : b ≠ a) : s.network.Has x b ↔ r.network.Has x b :=
      hsame x b fun h => hb (congrArg Removal.value h)
    refine ⟨⟨hs, fun b hb hsb => ?_, fun y b hsb => ?_⟩, fun b hb => (hstays hb).mpr⟩
    · by_cases hba : b = a
      · exact hba ▸ hsat (hba ▸ hsb)
      · have hbdone : b ∈ done := by simpa [hba] using hb
        exact hdone b hbdone ((hstays hba).mp hsb)
    · by_cases hba : (⟨y, b⟩ : Removal) = ⟨x, a⟩
      · cases hba
        exact hsub x a ha
      · exact hsub y b ((hsame y b hba).mp hsb)
  · intro _ r h
    obtain ⟨done, hhas, hr, hdone, hsub⟩ := h
    exact ⟨hr, fun b hb => hdone b ((hhas b).mpr (hsub x b hb)) hb, hsub⟩

/-- Once a constraint was examined, the values left to its only unassigned variable satisfy it. -/
theorem ends_examine {trigger : Option VariableId} (hwf : net.WellFormed)
    (htracks : p.Tracks net told (net.Unfit trigger)) (halive : net.OutlivedBy p.network)
    (hc : net.constraints.get? id = some c) (hmem : ∀ x, trigger = some x → x ∈ c.scope) :
    Ends (examine id) p
      (fun _ q => (q.Tracks net told (net.Unfit trigger) ∧ net.OutlivedBy q.network) ∧
        (∀ x a, net.pending c = [x] → q.network.Has x a → c.SatisfiedBy (net.trial x a)) ∧
        ∀ y b, q.network.Has y b → p.network.Has y b)
      (fun h q => ∃ x, h = .inconsistent (.emptyDomain x) ∧
        q.Wipes net told (net.Unfit trigger) x) := by
  have hc' : p.network.constraints.get? id = some c := by rw [htracks.constraints_eq, hc]
  have hpending : p.network.pending c = net.pending c :=
    Network.pending_congr fun y _ => htracks.assigned_eq y
  rw [examine, ends_bind, PassM.ends_constraintAt hc', ends_bind, PassM.ends_vars, ends_bind,
    PassM.ends_demand (Constraint.unassigned_eq_ok ((htracks.wellFormed hwf).fits hc')), hpending]
  by_cases hone : (net.pending c).length = 1
  · obtain ⟨x, hx⟩ := List.length_eq_one_iff.mp hone
    rw [if_pos hone]
    refine (ends_tryLast hwf htracks halive ⟨⟨id, hc⟩, hmem⟩ hx).mono ?_ fun _ _ h => ⟨x, h⟩
    intro _ q h
    obtain ⟨hq, hfit, hsub⟩ := h
    refine ⟨hq, fun y b hy hb => ?_, hsub⟩
    cases hx.symm.trans hy
    exact hfit b hb
  · rw [if_neg hone]
    refine ⟨⟨htracks, halive⟩, fun x _ hx => absurd ?_ hone, fun _ _ h => h⟩
    rw [hx]
    rfl

theorem ends_examineAll {trigger : Option VariableId} (hwf : net.WellFormed)
    (htracks : p.Tracks net told (net.Unfit trigger)) (halive : net.OutlivedBy p.network) :
    Ends ((net.affected trigger).forM examine) p
      (fun _ q => (q.Tracks net told (net.Unfit trigger) ∧ net.OutlivedBy q.network) ∧
        ∀ c x a, net.Examines trigger c → net.pending c = [x] → q.network.Has x a →
          c.SatisfiedBy (net.trial x a))
      (fun h q => ∃ x, h = .inconsistent (.emptyDomain x) ∧
        q.Wipes net told (net.Unfit trigger) x) := by
  refine (ends_forM (fun done (q : Pass ForwardCounters) =>
    (q.Tracks net told (net.Unfit trigger) ∧ net.OutlivedBy q.network) ∧
      ∀ id ∈ done, ∀ c, net.constraints.get? id = some c → ∀ x a, net.pending c = [x] →
        q.network.Has x a → c.SatisfiedBy (net.trial x a)) ?_ ?_).mono ?_ fun _ _ h => h
  · exact ⟨⟨htracks, halive⟩, by simp⟩
  · intro done id rest q hsplit h
    obtain ⟨⟨hq, halive'⟩, hdone⟩ := h
    obtain ⟨c, hc, hmem⟩ := Network.mem_affected.mp (hsplit ▸ by simp : id ∈ net.affected trigger)
    refine (ends_examine hwf hq halive' hc hmem).mono ?_ fun _ _ h => h
    intro _ r h
    obtain ⟨hr, hfit, hsub⟩ := h
    refine ⟨hr, fun id' hid' c' hc' x a hx ha => ?_⟩
    rcases List.mem_append.mp hid' with hid' | hid'
    · exact hdone id' hid' c' hc' x a hx (hsub x a ha)
    · rw [List.mem_singleton.mp hid', hc] at hc'
      cases hc'
      exact hfit x a hx ha
  · intro _ q h
    obtain ⟨hq, hdone⟩ := h
    refine ⟨hq, fun c x a ⟨⟨id, hc⟩, hmem⟩ => ?_⟩
    exact hdone id (Network.mem_affected.mpr ⟨c, hc, hmem⟩) c hc x a

/-- Forward checking takes away what does not fit an examined constraint, and nothing else. -/
theorem ends_pass {trigger : Option VariableId} (hwf : net.WellFormed)
    (hknown : ∀ x, trigger = some x → net.Knows x) (hnet : p.network = net)
    (htracks : p.Tracks net told (net.Unfit trigger)) :
    Ends (pass trigger) p
      (fun _ q => (q.Tracks net told (net.Unfit trigger) ∧ net.OutlivedBy q.network) ∧
        ∀ c x a, net.Examines trigger c → net.pending c = [x] → q.network.Has x a →
          c.SatisfiedBy (net.trial x a))
      (fun h q => ∃ x, h = .inconsistent (.emptyDomain x) ∧
        q.Wipes net told (net.Unfit trigger) x) := by
  have halive : net.OutlivedBy p.network := fun {_ a} ha => ⟨a, hnet ▸ ha⟩
  cases trigger with
  | none =>
    rw [pass, ends_bind, PassM.ends_constraintIds, hnet]
    exact ends_examineAll hwf htracks halive
  | some x =>
    have hindex : p.network.containing.get? x = some (net.mentioning x) := by
      rw [hnet, hwf.containing_of_knows (hknown x rfl)]
    rw [pass, ends_bind, PassM.ends_constraintsContaining hindex]
    exact ends_examineAll hwf htracks halive

end Forward

end FiniteDomain
