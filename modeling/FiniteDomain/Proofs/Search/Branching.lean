import FiniteDomain.Search.Branching
import FiniteDomain.Proofs.Network.Assignment
import FiniteDomain.Proofs.Network.Removal
/-!
# Choosing variables and values

Both selections choose an unassigned variable while there is one, and try its current values in
some order. Every decision leaves one variable less to assign.
-/
namespace FiniteDomain

variable {net : Network} {x : VariableId} {a : Int}

theorem Network.unassigned_eq_filter (net : Network) :
    net.unassigned = net.vars.keys.filter fun x => (net.assigned x).isNone := by
  apply List.filter_congr
  intro x hx
  obtain ⟨v, hv⟩ := Store.mem_keys.mp hx
  rw [assigned, hv, Option.bind_some]
  cases hassign : v.assignments <;> simp [Variable.isAssigned, Variable.assignedValue, hassign]

theorem Network.mem_unassigned : x ∈ net.unassigned ↔ net.Knows x ∧ net.assigned x = none := by
  rw [unassigned_eq_filter, List.mem_filter, Store.mem_keys, Option.isNone_iff_eq_none, Knows]

theorem Network.exists_assigned (h : net.unassigned = []) (hx : net.Knows x) :
    ∃ a, net.assigned x = some a := by
  apply Option.ne_none_iff_exists'.mp
  intro hfree
  have hmem := mem_unassigned.mpr ⟨hx, hfree⟩
  rw [h] at hmem
  cases hmem

theorem Network.nodup_unassigned (net : Network) : net.unassigned.Nodup :=
  net.vars.nodup_keys.sublist List.filter_sublist

theorem Network.unassigned_without (net : Network) (rs : List Removal) :
    (net.without rs).unassigned = net.unassigned := by
  have hkeys : (net.without rs).vars.keys = net.vars.keys :=
    Store.keys_congr (size_vars_without net rs)
  simp only [unassigned_eq_filter, hkeys, assigned_without]

theorem Network.unassigned_assigning (hx : net.Knows x) :
    (net.assigning x a).unassigned = net.unassigned.filter (· ≠ x) := by
  have hkeys : (net.assigning x a).vars.keys = net.vars.keys :=
    Store.keys_congr (size_vars_assigning net x a)
  rw [unassigned_eq_filter, unassigned_eq_filter, hkeys, List.filter_filter]
  apply List.filter_congr
  intro y _
  rw [assigned_assigning hx]
  by_cases hyx : y = x <;> simp [hyx]

theorem Network.length_unassigned_assigning (hx : x ∈ net.unassigned) :
    (net.assigning x a).unassigned.length + 1 = net.unassigned.length := by
  have herase : net.unassigned.erase x = net.unassigned.filter (· ≠ x) := by
    rw [net.nodup_unassigned.erase_eq_filter]
    apply List.filter_congr
    intro y _
    by_cases hyx : y = x <;> simp [hyx]
  rw [unassigned_assigning (mem_unassigned.mp hx).1, ← herase]
  exact List.length_erase_add_one hx

theorem firstLeast_eq_none_iff {α : Type} {weight : α → Nat} {as : List α} :
    firstLeast weight as = none ↔ as = [] := by
  cases as with
  | nil => simp [firstLeast]
  | cons a as =>
    rw [firstLeast]
    split
    · simp
    · split <;> simp

theorem mem_of_firstLeast {α : Type} {weight : α → Nat} {as : List α} {a : α}
    (h : firstLeast weight as = some a) : a ∈ as := by
  induction as generalizing a with
  | nil => cases h
  | cons b as ih =>
    rw [firstLeast] at h
    split at h
    · cases h
      exact List.mem_cons_self ..
    · next c hc =>
      split at h
      · cases h
        exact List.mem_cons_of_mem _ (ih hc)
      · cases h
        exact List.mem_cons_self ..

theorem VariableSelection.select_eq_none_iff {selection : VariableSelection} :
    selection.select net = none ↔ net.unassigned = [] := by
  cases selection with
  | inputOrder => exact List.head?_eq_none_iff
  | smallestDomain => exact firstLeast_eq_none_iff

theorem VariableSelection.mem_of_select {selection : VariableSelection}
    (h : selection.select net = some x) : x ∈ net.unassigned := by
  cases selection with
  | inputOrder => exact List.mem_of_mem_head? h
  | smallestDomain => exact mem_of_firstLeast h

theorem ValueSelection.order_perm (selection : ValueSelection) (values : List Int)
    (g : Generator) : (selection.order values g).1.Perm values := by
  cases selection with
  | inDomainOrder => exact .rfl
  | random => exact shuffle_perm values g

end FiniteDomain
