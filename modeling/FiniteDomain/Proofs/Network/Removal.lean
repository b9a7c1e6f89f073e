import FiniteDomain.Proofs.Network.WellFormed
import Mathlib.Data.List.Perm.Basic
/-!
# Removals

A network without some values of its current domains. What is removed is a set: pruning adds to it,
restoring takes from it, and putting everything back in any order gives back the network.
-/
namespace FiniteDomain.Network

/-- The network with the listed values taken out of the current domains. -/
def without (net : Network) (rs : List Removal) : Network :=
  { net with vars := net.vars.mapKeyed fun x v => v.without fun a => rs.contains ⟨x, a⟩ }

/-- The list has values of the current domains, each once. -/
structure Records (net : Network) (rs : List Removal) : Prop where
  nodup : rs.Nodup
  current : ∀ r ∈ rs, net.Has r.var r.value

variable {net : Network} {rs rs' : List Removal} {x : VariableId} {a : Int} {r : Removal}

theorem get?_without (net : Network) (rs : List Removal) (x : VariableId) :
    (net.without rs).vars.get? x =
      (net.vars.get? x).map fun v => v.without fun a => rs.contains ⟨x, a⟩ :=
  Store.get?_mapKeyed _ _ _

@[simp] theorem constraints_without (net : Network) (rs : List Removal) :
    (net.without rs).constraints = net.constraints :=
  rfl

@[simp] theorem containing_without (net : Network) (rs : List Removal) :
    (net.without rs).containing = net.containing :=
  rfl

@[simp] theorem size_vars_without (net : Network) (rs : List Removal) :
    (net.without rs).vars.size = net.vars.size :=
  Store.size_mapKeyed _ _

theorem knows_without : (net.without rs).Knows x ↔ net.Knows x := by
  simp [Knows, get?_without]

theorem has_without : (net.without rs).Has x a ↔ net.Has x a ∧ (⟨x, a⟩ : Removal) ∉ rs := by
  simp only [Has, get?_without, Option.map_eq_some_iff]
  constructor
  · intro h
    obtain ⟨_, ⟨v, hv, rfl⟩, ha⟩ := h
    obtain ⟨ha, hr⟩ := Variable.contains_without.mp ha
    exact ⟨⟨v, hv, ha⟩, by simpa using hr⟩
  · intro h
    obtain ⟨⟨v, hv, ha⟩, hr⟩ := h
    exact ⟨_, ⟨v, hv, rfl⟩, Variable.contains_without.mpr ⟨ha, by simpa using hr⟩⟩

theorem has_without_singleton {r : Removal} :
    (net.without [r]).Has x a ↔ net.Has x a ∧ (⟨x, a⟩ : Removal) ≠ r := by
  rw [has_without, List.mem_singleton]

@[simp] theorem assigned_without (net : Network) (rs : List Removal) (x : VariableId) :
    (net.without rs).assigned x = net.assigned x := by
  rw [assigned, assigned, get?_without]
  cases net.vars.get? x <;> rfl

theorem WellFormed.without (h : net.WellFormed) (rs : List Removal) :
    (net.without rs).WellFormed := by
  apply h.of_vars (Store.size_mapKeyed _ _)
  intro x w hw
  obtain ⟨v, hv, rfl⟩ := Option.map_eq_some_iff.mp ((get?_without net rs x).symm.trans hw)
  exact ⟨v, hv, Variable.fullDomain_without _ _, Variable.wellFormed_without (h.domains hv) _⟩

theorem WellFormed.without_nil (h : net.WellFormed) : net.without [] = net := by
  refine ext_vars rfl rfl fun x => ?_
  rw [get?_without]
  cases hx : net.vars.get? x with
  | none => rfl
  | some v => exact congrArg some (h.domains hx).without_none

theorem without_without (net : Network) (rs rs' : List Removal) :
    (net.without rs).without rs' = net.without (rs ++ rs') := by
  refine ext_vars rfl rfl fun x => ?_
  simp only [get?_without, Option.map_map]
  congr 1
  funext v
  simp [Variable.without_without, List.contains_eq_mem]

theorem Records.nil (net : Network) : net.Records [] := ⟨List.nodup_nil, by simp⟩

theorem Records.append (h : net.Records rs) (h' : (net.without rs).Records rs') :
    net.Records (rs ++ rs') where
  nodup := by
    refine List.nodup_append.mpr ⟨h.nodup, h'.nodup, ?_⟩
    intro r hr _ hr' h
    subst h
    exact (has_without.mp (h'.current r hr')).2 hr
  current r hr := by
    rcases List.mem_append.mp hr with hr | hr
    · exact h.current r hr
    · exact (has_without.mp (h'.current r hr)).1

theorem prune_eq_ok (h : net.WellFormed) (ha : net.Has x a) :
    net.prune x a = .ok (net.without [⟨x, a⟩]) := by
  obtain ⟨v, hv, ha⟩ := ha
  rw [prune, alter_of_get? hv (Variable.prune_eq_ok (h.domains hv) ha)]
  congr 1
  refine ext_vars rfl rfl fun y => ?_
  rw [get?_without, Store.get?_modify]
  by_cases hy : y = x
  · subst hy
    have hgone : (fun b : Int => b == a) = fun b => [(⟨y, a⟩ : Removal)].contains ⟨y, b⟩ := by
      funext b
      rw [Bool.eq_iff_iff]
      simp
    rw [if_pos rfl, hv, Option.map_some, Option.map_some, hgone]
  · have hnone (w : Variable) (hw : net.vars.get? y = some w) :
        (w.without fun b => [(⟨x, a⟩ : Removal)].contains ⟨y, b⟩) = w := by
      simpa [hy] using (h.domains hw).without_none
    cases hget : net.vars.get? y with
    | none => simp [hy]
    | some w => simp only [hy, if_false, Option.map_some, hnone w hget]

theorem Reachable.without (h : net.Reachable) (hrec : net.Records rs) :
    (net.without rs).Reachable := by
  induction rs generalizing net with
  | nil =>
    rw [h.wellFormed.without_nil]
    exact h
  | cons r rs ih =>
    obtain ⟨hr, hnodup⟩ := List.nodup_cons.mp hrec.nodup
    have hone : (net.without [r]).Reachable :=
      .prune h (prune_eq_ok h.wellFormed (hrec.current r List.mem_cons_self))
    have hrest : (net.without [r]).Records rs := by
      refine ⟨hnodup, fun q hq => ?_⟩
      rw [has_without_singleton]
      exact ⟨hrec.current q (List.mem_cons_of_mem _ hq), fun he => hr (he ▸ hq)⟩
    have hreached := ih hone hrest
    rwa [without_without] at hreached

theorem restore_without (h : net.WellFormed) (hrec : net.Records rs) (hr : r ∈ rs) :
    (net.without rs).restore r.var r.value = .ok (net.without (rs.erase r)) := by
  obtain ⟨v, hv, ha⟩ := hrec.current r hr
  have hget : (net.without rs).vars.get? r.var =
      some (v.without fun a => rs.contains ⟨r.var, a⟩) := by
    rw [get?_without, hv]
    rfl
  have hgone : rs.contains ⟨r.var, r.value⟩ = true := by simpa using hr
  rw [restore, alter_of_get? hget (Variable.restore_without (h.domains hv) ha hgone)]
  congr 1
  refine ext_vars rfl rfl fun y => ?_
  rw [get?_without, Store.get?_modify]
  have hmem (q : Removal) : q ∈ rs.erase r ↔ q ∈ rs ∧ q ≠ r := by
    rw [hrec.nodup.mem_erase_iff, and_comm]
  by_cases hy : y = r.var
  · subst hy
    rw [if_pos rfl, hget, hv, Option.map_some, Option.map_some]
    congr 2
    funext b
    rw [Bool.eq_iff_iff]
    have hne : (⟨r.var, b⟩ : Removal) ≠ r ↔ b ≠ r.value := by
      cases r
      simp
    simp [hmem, hne]
  · rw [if_neg hy, get?_without]
    congr 1
    funext w
    congr 1
    funext b
    rw [Bool.eq_iff_iff]
    have hne : (⟨y, b⟩ : Removal) ≠ r := fun he => hy (congrArg Removal.var he)
    simp [hmem, hne]

theorem Records.erase (h : net.Records rs) (r : Removal) : net.Records (rs.erase r) :=
  ⟨h.nodup.erase r, fun q hq => h.current q (List.mem_of_mem_erase hq)⟩

/-- Putting back what was removed, in any order, gives back the network. -/
theorem restoreAll_without (h : net.WellFormed) (hrec : net.Records rs) {order : List Removal}
    (hperm : order.Perm rs) : (net.without rs).restoreAll order = .ok net := by
  induction order generalizing rs with
  | nil =>
    rw [hperm.nil_eq.symm, restoreAll, h.without_nil]
  | cons r order ih =>
    have hr : r ∈ rs := hperm.subset (by simp)
    have hrest : order.Perm (rs.erase r) := by simpa using hperm.erase r
    rw [restoreAll, restore_without h hrec hr]
    exact ih (hrec.erase r) hrest

end FiniteDomain.Network
