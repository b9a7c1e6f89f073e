import FiniteDomain.Proofs.Network.WellFormed
/-!
# Assignments

A network with one more value assigned. Domains stay as they are, and taking the assignment back
gives back the network.
-/
namespace FiniteDomain.Network

def assigning (net : Network) (x : VariableId) (a : Int) : Network :=
  { net with vars := net.vars.modify x fun v => { v with assignments := a :: v.assignments } }

variable {net : Network} {x y : VariableId} {a b : Int}

theorem get?_assigning (net : Network) (x y : VariableId) (a : Int) :
    (net.assigning x a).vars.get? y =
      if y = x then (net.vars.get? y).map fun v => { v with assignments := a :: v.assignments }
      else net.vars.get? y :=
  Store.get?_modify _ _ _ _

@[simp] theorem constraints_assigning (net : Network) (x : VariableId) (a : Int) :
    (net.assigning x a).constraints = net.constraints :=
  rfl

@[simp] theorem containing_assigning (net : Network) (x : VariableId) (a : Int) :
    (net.assigning x a).containing = net.containing :=
  rfl

@[simp] theorem size_vars_assigning (net : Network) (x : VariableId) (a : Int) :
    (net.assigning x a).vars.size = net.vars.size :=
  Store.size_modify _ _ _

theorem has_assigning : (net.assigning x a).Has y b ↔ net.Has y b := by
  rw [Has, get?_assigning]
  by_cases hy : y = x
  · simp only [hy, if_true, Option.map_eq_some_iff, Has]
    constructor
    · intro h
      obtain ⟨_, ⟨v, hv, rfl⟩, hb⟩ := h
      exact ⟨v, hv, hb⟩
    · intro h
      obtain ⟨v, hv, hb⟩ := h
      exact ⟨_, ⟨v, hv, rfl⟩, hb⟩
  · simp [hy, Has]

theorem assigned_assigning (hx : net.Knows x) :
    (net.assigning x a).assigned y = if y = x then some a else net.assigned y := by
  rw [assigned, get?_assigning]
  by_cases hy : y = x
  · obtain ⟨v, hv⟩ := hx
    simp [hy, hv, Variable.assignedValue]
  · simp [hy, assigned]

theorem WellFormed.assigning (h : net.WellFormed) (x : VariableId) (a : Int) :
    (net.assigning x a).WellFormed := by
  apply h.of_vars (Store.size_modify _ _ _)
  intro y w hw
  rw [Store.get?_modify] at hw
  by_cases hy : y = x
  · rw [if_pos hy] at hw
    obtain ⟨v, hv, rfl⟩ := Option.map_eq_some_iff.mp hw
    exact ⟨v, hv, rfl, (h.domains hv).nodup, (h.domains hv).size_eq⟩
  · rw [if_neg hy] at hw
    exact ⟨w, hw, rfl, h.domains hw⟩

theorem assign_eq_ok (h : net.Has x a) : net.assign x a = .ok (net.assigning x a) := by
  obtain ⟨v, hv, ha⟩ := h
  have hassign : v.assign a = .ok { v with assignments := a :: v.assignments } := if_pos ha
  rw [assign, alter_of_get? hv hassign, assigning]
  congr 2
  exact Store.modify_of_get? hv fun v => { v with assignments := a :: v.assignments }

theorem unassign_assigning (hx : net.Knows x) : (net.assigning x a).unassign x = .ok net := by
  obtain ⟨v, hv⟩ := hx
  have hget : (net.assigning x a).vars.get? x =
      some { v with assignments := a :: v.assignments } := by
    rw [get?_assigning, if_pos rfl, hv, Option.map_some]
  rw [unassign, alter_of_get? hget (w := v) rfl]
  congr 1
  refine ext_vars rfl rfl fun y => ?_
  rw [Store.get?_modify, get?_assigning]
  by_cases hy : y = x
  · simp [hy, hv]
  · simp [hy]

end FiniteDomain.Network
