import FiniteDomain.Proofs.Network.Family
/-!
# The greatest self-supported family

All self-supported families taken together are one, the greatest. It is a matter of the variables
and of the bindings that the constraints allow: constraints in another order, or scopes in another
order with their tuples, have the same.
-/
namespace FiniteDomain

/-- The values of some self-supported family. -/
def Network.Core (net : Network) (x : VariableId) (a : Int) : Prop :=
  ∃ G, net.SelfSupported G ∧ G x a

/-- The same bindings of variables to values are allowed, along a scope in another order. -/
structure Constraint.Rearranges (c c' : Constraint) : Prop where
  scope : c.scope.Perm c'.scope
  tuples : ∀ t ∈ c.tuples, ∃ t' ∈ c'.tuples, (c.scope.zip t).Perm (c'.scope.zip t')
  tuples_back : ∀ t' ∈ c'.tuples, ∃ t ∈ c.tuples, (c.scope.zip t).Perm (c'.scope.zip t')

/-- The same variables, with the constraints in another order and rearranged each. -/
structure Network.Rearranges (net net' : Network) : Prop where
  vars_eq : net.vars = net'.vars
  constraints : ∃ cs, cs.Perm net.constraints.toList ∧
    List.Forall₂ Constraint.Rearranges cs net'.constraints.toList

variable {net net' : Network} {c c' : Constraint} {x : VariableId} {a : Int} {rs : List Removal}
  {offered : VariableId → Int → Prop} {G : VariableId → Int → Prop}

theorem Network.selfSupported_core (net : Network) : net.SelfSupported net.Core where
  current h := by
    obtain ⟨G, hG, ha⟩ := h
    exact hG.current ha
  supported hc hx h := by
    obtain ⟨G, hG, ha⟩ := h
    have hsupports := hG.supported hc hx ha
    refine hsupports.mono fun y b _ _ hb => hb.mono fun hy => ?_
    exact ⟨G, hG, hy⟩

theorem Network.SelfSupported.core (h : net.SelfSupported G) (ha : G x a) : net.Core x a :=
  ⟨G, h, ha⟩

theorem Network.unsupported_none_iff {r : Removal} :
    net.Unsupported none r ↔ ¬net.Core r.var r.value := by
  constructor
  · intro h hcore
    have hrespects : net.Respects none net.Core := fun hx => nomatch hx
    exact h net.Core net.selfSupported_core hrespects hcore
  · intro h G hG _ ha
    exact h (hG.core ha)

/-- What is left of a network once unsupported values have gone and every constraint is consistent
is the greatest self-supported family. -/
theorem Network.has_without_iff_core (hrs : ∀ r ∈ rs, net.Unsupported none r)
    (h : ∀ id c, net.constraints.get? id = some c → (net.without rs).Consistent c) :
    (net.without rs).Has x a ↔ net.Core x a := by
  have hrespects : net.Respects none (net.without rs).Has := fun hx => nomatch hx
  rw [has_without_iff_not_unsupported hrs h hrespects, unsupported_none_iff, not_not]
  exact and_iff_right_of_imp net.selfSupported_core.current

theorem Constraint.Rearranges.symm (h : c.Rearranges c') : c'.Rearranges c where
  scope := h.scope.symm
  tuples t ht := by
    obtain ⟨u, hu, hperm⟩ := h.tuples_back t ht
    exact ⟨u, hu, hperm.symm⟩
  tuples_back t ht := by
    obtain ⟨u, hu, hperm⟩ := h.tuples t ht
    exact ⟨u, hu, hperm.symm⟩

theorem Constraint.Supports.rearrange (h : c.Supports offered x a) (hcc : c.Rearranges c')
    (hfits : c'.Fits net') : c'.Supports offered x a := by
  obtain ⟨t, ht, hall⟩ := h
  obtain ⟨t', ht', hperm⟩ := hcc.tuples t ht
  obtain ⟨-, hbindings⟩ := List.forall₂_iff_zip.mp hall
  have hlength : c'.scope.length = t'.length := hfits.length_eq ht'
  refine ⟨t', ht', List.forall₂_iff_zip.mpr ⟨hlength, fun hb => ?_⟩⟩
  exact hbindings (hperm.mem_iff.mpr hb)

namespace Network.Rearranges

theorem exists_left (h : net.Rearranges net') {id : ConstraintId}
    (hc : net'.constraints.get? id = some c') :
    ∃ id c, net.constraints.get? id = some c ∧ c.Rearranges c' := by
  obtain ⟨cs, hperm, hall⟩ := h.constraints
  have hmem : c' ∈ net'.constraints.toList := Store.mem_toList.mpr ⟨id, hc⟩
  obtain ⟨c, hc, hcc⟩ := (exists_mem_of_forall₂ hall).2 c' hmem
  obtain ⟨id, hid⟩ := Store.mem_toList.mp (hperm.mem_iff.mp hc)
  exact ⟨id, c, hid, hcc⟩

theorem exists_right (h : net.Rearranges net') {id : ConstraintId}
    (hc : net.constraints.get? id = some c) :
    ∃ id c', net'.constraints.get? id = some c' ∧ c.Rearranges c' := by
  obtain ⟨cs, hperm, hall⟩ := h.constraints
  have hmem : c ∈ cs := hperm.mem_iff.mpr (Store.mem_toList.mpr ⟨id, hc⟩)
  obtain ⟨c', hc', hcc⟩ := (exists_mem_of_forall₂ hall).1 c hmem
  obtain ⟨id, hid⟩ := Store.mem_toList.mp hc'
  exact ⟨id, c', hid, hcc⟩

private theorem selfSupported_of_vars_eq (hvars : net.vars = net'.vars) (hwf : net'.WellFormed)
    (hold : ∀ {id c'}, net'.constraints.get? id = some c' →
      ∃ id c, net.constraints.get? id = some c ∧ c.Rearranges c')
    (hG : net.SelfSupported G) : net'.SelfSupported G where
  current ha := by
    have hcurrent := hG.current ha
    rwa [Has, hvars] at hcurrent
  supported := by
    intro id c' y b hc' hy hb
    obtain ⟨id, c, hc, hcc⟩ := hold hc'
    have hassigned (z : VariableId) : net.assigned z = net'.assigned z := by
      rw [assigned, assigned, hvars]
    have hsupports := hG.supported hc (hcc.scope.mem_iff.mpr hy) hb
    have hchoice := hsupports.mono fun z d _ _ hd =>
      (choice_congr (hassigned z) Iff.rfl).mp hd
    exact hchoice.rearrange hcc (hwf.fits hc')

theorem has_iff (h : net.Rearranges net') : net.Has x a ↔ net'.Has x a := by
  rw [Has, Has, h.vars_eq]

/-- The order of the constraints and of their scopes does not show in the greatest family. -/
theorem core_iff (h : net.Rearranges net') (hwf : net.WellFormed) (hwf' : net'.WellFormed) :
    net.Core x a ↔ net'.Core x a := by
  constructor
  · intro hcore
    have hself := selfSupported_of_vars_eq h.vars_eq hwf' h.exists_left net.selfSupported_core
    exact hself.core hcore
  · intro hcore
    have hself := selfSupported_of_vars_eq h.vars_eq.symm hwf
      (fun hc => by
        obtain ⟨id, c', hc', hcc⟩ := h.exists_right hc
        exact ⟨id, c', hc', hcc.symm⟩) net'.selfSupported_core
    exact hself.core hcore

end Network.Rearranges

end FiniteDomain
