import FiniteDomain.Proofs.Network.Support
/-!
# Assigned scopes

Which variables of a scope are still to be assigned. Where all but one are assigned, a support is
no more than a satisfying tuple.
-/
namespace FiniteDomain

variable {net net' : Network} {c : Constraint} {x : VariableId} {a : Int}

/-- The variables of the scope without an assigned value, in scope order. -/
def Network.pending (net : Network) (c : Constraint) : List VariableId :=
  c.scope.filter fun x => (net.assigned x).isNone

theorem Network.mem_pending : x ∈ net.pending c ↔ x ∈ c.scope ∧ net.assigned x = none := by
  rw [pending, List.mem_filter, Option.isNone_iff_eq_none]

theorem Network.pending_congr (h : ∀ x ∈ c.scope, net.assigned x = net'.assigned x) :
    net.pending c = net'.pending c := by
  rw [pending, pending]
  apply List.filter_congr
  intro x hx
  rw [h x hx]

theorem forall₂_eq_some_iff {f : VariableId → Option Int} {xs : List VariableId}
    {t : List Int} : List.Forall₂ (fun x a => f x = some a) xs t ↔ xs.map f = t.map some := by
  induction xs generalizing t with
  | nil => cases t <;> simp
  | cons x xs ih => cases t <;> simp [ih]

theorem Constraint.satisfiedBy_iff_mem {value : VariableId → Option Int} {t : List Int}
    (h : List.Forall₂ (fun x a => value x = some a) c.scope t) :
    c.SatisfiedBy value ↔ t ∈ c.tuples := by
  constructor
  · intro h
    obtain ⟨u, hu, hall⟩ := h
    have heq := (forall₂_eq_some_iff.mp h).symm.trans (forall₂_eq_some_iff.mp hall)
    exact List.map_injective_iff.mpr (fun _ _ h => Option.some.inj h) heq ▸ hu
  · exact fun ht => ⟨t, ht, h⟩

theorem Network.pending_eq_nil_iff :
    net.pending c = [] ↔ ∃ t, List.Forall₂ (fun x a => net.assigned x = some a) c.scope t := by
  rw [List.eq_nil_iff_forall_not_mem]
  simp only [mem_pending, not_and]
  constructor
  · intro h
    exact exists_forall₂ fun x hx => Option.ne_none_iff_exists'.mp (h x hx)
  · rintro ⟨t, hall⟩ x hx
    obtain ⟨a, ha⟩ := exists_of_forall₂ hall hx
    rw [ha]
    exact Option.some_ne_none a

private theorem assigned_of_get? {v : Variable} (hv : net.vars.get? x = some v) :
    net.assigned x = v.assignedValue := by
  rw [Network.assigned, hv, Option.bind_some]

theorem Constraint.unassigned_eq_ok (h : c.Fits net) :
    c.unassigned net.vars = .ok (net.pending c) := by
  have hlist : ∀ xs : List VariableId, (∀ x ∈ xs, net.Knows x) →
      unassignedAmong net.vars xs = .ok (xs.filter fun x => (net.assigned x).isNone) := by
    intro xs
    induction xs with
    | nil => intro _; rfl
    | cons x xs ih =>
      intro hknown
      obtain ⟨v, hv⟩ := hknown x (by simp)
      rw [unassignedAmong, Store.fetch_of_get? hv, ih fun y hy => hknown y (List.mem_cons_of_mem _ hy),
        List.filter_cons, assigned_of_get? hv]
      cases hassign : v.assignments <;> simp [bind, Except.bind, pure, Except.pure,
        Variable.isAssigned, Variable.assignedValue, hassign]
  exact hlist c.scope h.known

theorem Constraint.assignedValues_eq_ok (h : c.Fits net) :
    ∃ values, c.assignedValues net.vars = .ok values ∧
      ∀ t, values = some t ↔ List.Forall₂ (fun x a => net.assigned x = some a) c.scope t := by
  have hlist : ∀ xs : List VariableId, (∀ x ∈ xs, net.Knows x) →
      ∃ values, valuesAlong net.vars xs = .ok values ∧
        ∀ t, values = some t ↔ List.Forall₂ (fun x a => net.assigned x = some a) xs t := by
    intro xs
    induction xs with
    | nil => exact fun _ => ⟨some [], rfl, fun t => by simp [eq_comm]⟩
    | cons x xs ih =>
      intro hknown
      obtain ⟨v, hv⟩ := hknown x (by simp)
      obtain ⟨values, hvalues, hiff⟩ := ih fun y hy => hknown y (List.mem_cons_of_mem _ hy)
      have hx := assigned_of_get? hv
      cases hassign : v.assignedValue with
      | none =>
        refine ⟨none, ?_, fun t => ?_⟩
        · rw [valuesAlong, Store.fetch_of_get? hv]
          simp [bind, Except.bind, pure, Except.pure, hassign]
        · simp [List.forall₂_cons_left_iff, hx, hassign]
      | some a =>
        refine ⟨values.map (a :: ·), ?_, fun t => ?_⟩
        · rw [valuesAlong, Store.fetch_of_get? hv]
          simp [bind, Except.bind, pure, Except.pure, hassign, hvalues]
        · simp only [Option.map_eq_some_iff, List.forall₂_cons_left_iff, hx, hassign, hiff,
            Option.some.injEq]
          constructor
          · intro h
            obtain ⟨t, ht, rfl⟩ := h
            exact ⟨a, t, rfl, ht, rfl⟩
          · intro h
            obtain ⟨_, t, rfl, ht, rfl⟩ := h
            exact ⟨t, ht, rfl⟩
  exact hlist c.scope h.known

theorem Constraint.satisfiedBy_congr {value value' : VariableId → Option Int}
    (h : ∀ x ∈ c.scope, value x = value' x) : c.SatisfiedBy value ↔ c.SatisfiedBy value' := by
  constructor
  · intro h
    obtain ⟨t, ht, hall⟩ := h
    exact ⟨t, ht, forall₂_imp_mem hall fun x a hx ha => (h x hx).symm.trans ha⟩
  · intro h
    obtain ⟨t, ht, hall⟩ := h
    exact ⟨t, ht, forall₂_imp_mem hall fun x a hx ha => (h x hx).trans ha⟩

end FiniteDomain
