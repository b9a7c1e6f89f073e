import FiniteDomain.Proofs.Propagation.Strength
/-!
# Stronger constraints

A constraint covers another one on some of its variables if its tuples satisfy that one too. Where
all constraints of a network are covered by those of a second one, arc consistency on the second
finds all that it finds on the first.
-/
namespace FiniteDomain

/-- Values that satisfy the first constraint satisfy the second one, which is on some of its
variables. -/
structure Constraint.Covers (d c : Constraint) : Prop where
  scope : ∀ x ∈ c.scope, x ∈ d.scope
  satisfiedBy : ∀ value, d.SatisfiedBy value → c.SatisfiedBy value

def Network.Covers (net weak : Network) : Prop :=
  ∀ id c, weak.constraints.get? id = some c →
    ∃ id' d, net.constraints.get? id' = some d ∧ d.Covers c

variable {p p' : Propagator} {net weak : Network} {trigger : Option VariableId} {j j' : Journal}
  {outcome outcome' : Outcome} {c d : Constraint} {x : VariableId} {a : Int}
  {offered : VariableId → Int → Prop} {id : ConstraintId}

theorem Constraint.Covers.refl (c : Constraint) : c.Covers c := ⟨fun _ => id, fun _ => id⟩

theorem exists_value_of_forall₂ {R : VariableId → Int → Prop} {xs : List VariableId} {t : List Int}
    (hnodup : xs.Nodup) (h : List.Forall₂ R xs t) :
    ∃ value : VariableId → Option Int, List.Forall₂ (fun x a => value x = some a) xs t ∧
      ∀ x ∈ xs, ∀ a, value x = some a → R x a := by
  induction h with
  | nil => exact ⟨fun _ => none, .nil, fun x hx => nomatch hx⟩
  | @cons x a xs t ha _ ih =>
    obtain ⟨hx, hxs⟩ := List.nodup_cons.mp hnodup
    obtain ⟨value, hvalues, hR⟩ := ih hxs
    refine ⟨Function.update value x (some a), .cons (Function.update_self ..) ?_, ?_⟩
    · refine forall₂_imp_mem hvalues fun y b hy hb => ?_
      have hyx : y ≠ x := by
        rintro rfl
        exact hx hy
      rwa [Function.update_of_ne hyx]
    · intro y hy b hb
      by_cases hyx : y = x
      · subst hyx
        rw [Function.update_self] at hb
        exact Option.some.inj hb ▸ ha
      · rw [Function.update_of_ne hyx] at hb
        exact hR y ((List.mem_cons.mp hy).resolve_left hyx) b hb

theorem Constraint.Covers.supports (h : d.Covers c) (hnodup : d.scope.Nodup)
    (hsupports : d.Supports offered x a) : c.Supports offered x a := by
  obtain ⟨t, ht, hall⟩ := hsupports
  obtain ⟨value, hvalues, hoffered⟩ := exists_value_of_forall₂ hnodup hall
  obtain ⟨u, hu, hu'⟩ := h.satisfiedBy value ⟨t, ht, hvalues⟩
  exact ⟨u, hu, forall₂_imp_mem hu' fun y b hy hb => hoffered y (h.scope y hy) b hb⟩

theorem Propagator.Behaves.selfSupported_weak (hwf : net.WellFormed) (hwithin : net.Within weak)
    (hcovers : net.Covers weak)
    (hconsistent : ∀ id c, net.constraints.get? id = some c →
      (net.without outcome.removed).Consistent c) :
    weak.SelfSupported (net.without outcome.removed).Has where
  current ha := hwithin.has (Network.has_without.mp ha).1
  supported {id c x a} hc hx ha := by
    obtain ⟨id', d, hd, hcovers⟩ := hcovers id c hc
    have hsupports := hcovers.supports (hwf.fits hd).nodup
      (hconsistent id' d hd (hcovers.scope x hx) ha)
    refine hsupports.mono fun y b _ _ hb => (Network.choice_congr ?_ Iff.rfl).mp hb
    rw [Network.assigned_without, hwithin.assigned_eq]

/-- Where arc consistency goes on with the covering network, it does with the covered one and leaves
no fewer values. -/
theorem Propagator.Behaves.dominates_of_covers (h : p.Behaves trigger net j outcome)
    (h' : p'.Behaves trigger weak j' outcome') (hkind : p.kind = .arc) (hkind' : p'.kind = .arc)
    (hwf : net.WellFormed) (hwithin : net.Within weak) (hcovers : net.Covers weak)
    (hstatus : outcome.status = .consistent)
    (hconsistent : ∀ id c, net.constraints.get? id = some c →
      (net.without outcome.removed).Consistent c) :
    outcome'.status = .consistent ∧
      (net.without outcome.removed).Within (weak.without outcome'.removed) := by
  have houtlived : net.OutlivedBy (net.without outcome.removed) :=
    fun ha => h.network_eq ▸ h.outlived hstatus ha
  have hself := selfSupported_weak hwf hwithin hcovers hconsistent
  have hsettles := h.settles hstatus
  rw [hkind] at hsettles
  have hrespects : weak.Respects trigger (net.without outcome.removed).Has := by
    intro x a b hx hb ha
    refine hsettles.2 hx ?_ ha
    rw [Network.assigned_without, hwithin.assigned_eq, hb]
  have hafter : (net.without outcome.removed).Within (weak.without outcome'.removed) := by
    refine h.within h' hwithin hstatus fun {x a} ha hdiscards => ?_
    rw [hkind'] at hdiscards
    exact hdiscards _ hself hrespects ha
  refine ⟨?_, hafter⟩
  cases hstatus' : outcome'.status with
  | consistent => rfl
  | inconsistent why =>
    have hrefutes := h'.refutes why hstatus'
    rw [hkind'] at hrefutes
    obtain ⟨x, rfl⟩ := hrefutes
    exact absurd hstatus' (h'.ne_emptyDomain hwithin hafter houtlived)

end FiniteDomain
