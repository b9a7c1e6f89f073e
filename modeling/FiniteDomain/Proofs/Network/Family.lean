import FiniteDomain.Proofs.Network.Removal
import FiniteDomain.Proofs.Network.Support
/-!
# Self-supported families

A family of current values that support one another is never touched by removing unsupported
values, whatever was removed before. The values of a completion are such a family.
-/
namespace FiniteDomain.Network

/-- The values are current, and each has supports among them in every constraint. -/
structure SelfSupported (net : Network) (G : VariableId → Int → Prop) : Prop where
  current : ∀ {x a}, G x a → net.Has x a
  supported : ∀ {id c x a}, net.constraints.get? id = some c → x ∈ c.scope → G x a →
    c.Supports (net.Choice G) x a

/-- At the trigger the family has no other than the assigned value. -/
def Respects (net : Network) (trigger : Option VariableId) (G : VariableId → Int → Prop) : Prop :=
  ∀ {x a b}, trigger = some x → net.assigned x = some b → G x a → a = b

/-- No self-supported family has the value. -/
def Unsupported (net : Network) (trigger : Option VariableId) (r : Removal) : Prop :=
  ∀ G, net.SelfSupported G → net.Respects trigger G → ¬G r.var r.value

variable {net : Network} {trigger : Option VariableId} {c : Constraint} {id : ConstraintId}
  {x : VariableId} {a b : Int} {s : Solution} {rs : List Removal}

theorem CompletedBy.selfSupported (h : net.CompletedBy s) :
    net.SelfSupported fun x a => s.get? x = some a :=
  ⟨h.offers, fun hc _ hs => h.supports hc hs⟩

theorem CompletedBy.respects (h : net.CompletedBy s) (trigger : Option VariableId) :
    net.Respects trigger fun x a => s.get? x = some a :=
  fun _ hx hs => h.eq_assigned hx hs

theorem CompletedBy.not_unsupported (h : net.CompletedBy s) (hs : s.get? x = some a) :
    ¬net.Unsupported trigger ⟨x, a⟩ :=
  fun hu => hu _ h.selfSupported (h.respects trigger) hs

theorem unsupported_of_ne (hx : net.assigned x = some b) (ha : a ≠ b) :
    net.Unsupported (some x) ⟨x, a⟩ :=
  fun _ _ hrespects hG => ha (hrespects rfl hx hG)

theorem unsupported_of_not_supports (hrs : ∀ r ∈ rs, net.Unsupported trigger r)
    (hc : net.constraints.get? id = some c) (hx : x ∈ c.scope)
    (hnot : ¬c.Supports ((net.without rs).Choice (net.without rs).Has) x a) :
    net.Unsupported trigger ⟨x, a⟩ := by
  intro G hG hrespects ha
  apply hnot
  refine (hG.supported hc hx ha).mono fun y b _ _ hb => ?_
  refine (choice_congr (assigned_without ..).symm Iff.rfl).mp (hb.mono fun hy => ?_)
  rw [has_without]
  exact ⟨hG.current hy, fun hmem => hrs _ hmem G hG hrespects hy⟩

/-- Where every constraint is consistent, the current values support one another. -/
theorem selfSupported_has_without
    (h : ∀ id c, net.constraints.get? id = some c → (net.without rs).Consistent c) :
    net.SelfSupported (net.without rs).Has where
  current ha := (has_without.mp ha).1
  supported hc hx ha := by
    have hsupports := h _ _ hc hx ha
    refine hsupports.mono fun y b _ _ hb => ?_
    exact (choice_congr (assigned_without net rs y) Iff.rfl).mp hb

theorem has_without_iff_not_unsupported (hrs : ∀ r ∈ rs, net.Unsupported trigger r)
    (h : ∀ id c, net.constraints.get? id = some c → (net.without rs).Consistent c)
    (hrespects : net.Respects trigger (net.without rs).Has) :
    (net.without rs).Has x a ↔ net.Has x a ∧ ¬net.Unsupported trigger ⟨x, a⟩ := by
  constructor
  · intro ha
    have hcurrent := (has_without.mp ha).1
    exact ⟨hcurrent, fun hu => hu _ (selfSupported_has_without h) hrespects ha⟩
  · intro ha
    obtain ⟨hcurrent, hsupported⟩ := ha
    exact has_without.mpr ⟨hcurrent, fun hmem => hsupported (hrs _ hmem)⟩

end FiniteDomain.Network
