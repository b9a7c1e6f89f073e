import FiniteDomain.Propagation.Check
import FiniteDomain.Proofs.Network.Scope
import FiniteDomain.Proofs.Propagation.Pass
/-!
# What the check finds

A check changes nothing but its counters. It fails exactly at a constraint of the trigger whose
assigned tuple is not allowed.
-/
namespace FiniteDomain.Check

variable {p : Pass CheckCounters} {net : Network} {c : Constraint} {id : ConstraintId}
  {x : VariableId}

def Violated (net : Network) (c : Constraint) : Prop :=
  net.pending c = [] ∧ ¬c.SatisfiedBy net.assigned

theorem ends_examine (hwf : net.WellFormed) (hc : net.constraints.get? id = some c)
    (hnet : p.network = net) :
    Ends (examine id) p
      (fun _ q => ¬Violated net c ∧
        ∃ own, q = { p with own } ∧ own.violations = p.own.violations)
      (fun h q => h = .inconsistent (.constraintViolated id) ∧ Violated net c ∧
        ∃ own, q = { p with own } ∧ own.violations = p.own.violations + 1) := by
  subst hnet
  obtain ⟨values, hvalues, hiff⟩ := Constraint.assignedValues_eq_ok (hwf.fits hc)
  rw [examine, ends_bind, PassM.ends_constraintAt hc, ends_bind, PassM.ends_vars, ends_bind,
    PassM.ends_demand hvalues]
  cases values with
  | none =>
    refine ⟨?_, p.own, rfl, rfl⟩
    intro h
    obtain ⟨hpending, _⟩ := h
    obtain ⟨t, ht⟩ := Network.pending_eq_nil_iff.mp hpending
    cases (hiff t).mpr ht
  | some t =>
    have ht := (hiff t).mp rfl
    have hsat : c.SatisfiedBy p.network.assigned ↔ c.check t = true :=
      Constraint.satisfiedBy_iff_mem ht
    rw [ends_bind, PassM.ends_modifyOwn]
    by_cases hcheck : c.check t = true
    · rw [if_pos hcheck, ends_pure]
      exact ⟨fun h => h.2 (hsat.mpr hcheck), _, rfl, rfl⟩
    · rw [if_neg hcheck, ends_bind, PassM.ends_modifyOwn, PassM.ends_deadEnd]
      refine ⟨rfl, ⟨?_, fun h => hcheck (hsat.mp h)⟩, _, rfl, rfl⟩
      exact Network.pending_eq_nil_iff.mpr ⟨t, ht⟩

theorem ends_pass (hwf : net.WellFormed) (hnet : p.network = net) (trigger : Option VariableId)
    (hknown : ∀ x, trigger = some x → net.Knows x) :
    Ends (pass trigger) p
      (fun _ q => (∀ x id c, trigger = some x → net.constraints.get? id = some c → x ∈ c.scope →
          ¬Violated net c) ∧
        ∃ own, q = { p with own } ∧ own.violations = p.own.violations)
      (fun h q => (∃ x id c, trigger = some x ∧ net.constraints.get? id = some c ∧ x ∈ c.scope ∧
          h = .inconsistent (.constraintViolated id) ∧ Violated net c) ∧
        ∃ own, q = { p with own } ∧ own.violations = p.own.violations + 1) := by
  cases trigger with
  | none =>
    refine ⟨fun x id c h => ?_, p.own, rfl, rfl⟩
    cases h
  | some x =>
    have hindex : p.network.containing.get? x = some (net.mentioning x) := by
      rw [hnet, hwf.containing_of_knows (hknown x rfl)]
    rw [pass, ends_bind, PassM.ends_constraintsContaining hindex]
    refine (ends_forM (fun done q =>
      (∀ id ∈ done, ∀ c, net.constraints.get? id = some c → ¬Violated net c) ∧
        ∃ own, q = { p with own } ∧ own.violations = p.own.violations) ?_ ?_).mono ?_ fun _ _ h => h
    · exact ⟨by simp, p.own, rfl, rfl⟩
    · intro done id rest q hids h
      obtain ⟨hdone, own, rfl, hown⟩ := h
      have hid : id ∈ net.mentioning x := by rw [hids]; simp
      obtain ⟨c, hc, hx⟩ := Network.mem_mentioning.mp hid
      refine (ends_examine (p := { p with own }) hwf hc hnet).mono ?_ ?_
      · intro _ q h
        obtain ⟨hnot, own', rfl, hown'⟩ := h
        refine ⟨fun id' hid' c' hc' => ?_, own', rfl, hown'.trans hown⟩
        rcases List.mem_append.mp hid' with hid' | hid'
        · exact hdone id' hid' c' hc'
        · rw [List.mem_singleton.mp hid', hc] at hc'
          exact Option.some.inj hc' ▸ hnot
      · intro h q h
        obtain ⟨rfl, hviolated, own', rfl, hown'⟩ := h
        exact ⟨⟨x, id, c, rfl, hc, hx, rfl, hviolated⟩, own', rfl, hown'.trans (by rw [hown])⟩
    · intro _ q h
      obtain ⟨hdone, hown⟩ := h
      refine ⟨fun x' id c hx' hc hmem => ?_, hown⟩
      cases hx'
      exact hdone id (Network.mem_mentioning.mpr ⟨c, hc, hmem⟩) c hc

end FiniteDomain.Check
