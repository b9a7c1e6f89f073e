import FiniteDomain.Proofs.Propagation.Upkeep
/-!
# Stronger propagation

Called on two networks that differ in their current domains only, a stronger propagator finds all
that a weaker one finds. Where the stronger one goes on, the weaker one does, and with no fewer
values.
-/
namespace FiniteDomain

/-- The first kind finds what the second one finds. -/
inductive PropagatorKind.Dominates : PropagatorKind → PropagatorKind → Prop
  | check (kind : PropagatorKind) : Dominates kind check
  | forward : Dominates arc forward

/-- The networks agree on assignments, and the current domains of the first are parts of those of
the second, in the same order and none of them empty for it. -/
structure Network.Within (net weak : Network) : Prop where
  size_eq : net.vars.size = weak.vars.size
  assigned_eq : net.assigned = weak.assigned
  sublist : ∀ {x v w}, net.vars.get? x = some v → weak.vars.get? x = some w →
    v.currentDomain.Sublist w.currentDomain
  outlived : weak.OutlivedBy net

variable {p p' : Propagator} {net weak : Network} {trigger : Option VariableId} {j j' : Journal}
  {outcome outcome' : Outcome} {c : Constraint} {x : VariableId} {a : Int} {rs rs' : List Removal}

theorem sublist_filter_of_imp {α : Type} {p q : α → Bool} {as bs : List α} (h : as.Sublist bs)
    (himp : ∀ a ∈ as, p a = true → q a = true) : (as.filter p).Sublist (bs.filter q) := by
  have hboth : as.filter p = as.filter fun a => p a && q a := by
    apply List.filter_congr
    intro a ha
    cases hp : p a with
    | false => rfl
    | true => rw [himp a ha hp, Bool.and_self]
  rw [hboth]
  refine (h.filter _).trans (List.monotone_filter_right bs fun a hand => ?_)
  exact (Bool.and_eq_true_iff.mp hand).2

namespace Network

theorem Within.refl (net : Network) : net.Within net where
  size_eq := rfl
  assigned_eq := rfl
  sublist hv hw := by
    obtain rfl := Option.some.inj (hv.symm.trans hw)
    exact .refl _
  outlived {_ a} ha := ⟨a, ha⟩

theorem Within.get? (h : net.Within weak) {v : Variable} (hv : net.vars.get? x = some v) :
    ∃ w, weak.vars.get? x = some w :=
  Store.get?_of_lt_size (h.size_eq ▸ Store.lt_size_of_get? hv)

theorem Within.has (h : net.Within weak) (ha : net.Has x a) : weak.Has x a := by
  obtain ⟨v, hv, ha⟩ := ha
  obtain ⟨w, hw⟩ := h.get? hv
  have hmem := (h.sublist hv hw).subset (Variable.mem_currentDomain.mpr ha)
  exact ⟨w, hw, Variable.mem_currentDomain.mp hmem⟩

theorem Within.pending_eq (h : net.Within weak) : net.pending c = weak.pending c :=
  pending_congr fun _ _ => congrFun h.assigned_eq _

theorem Within.trial_eq (h : net.Within weak) : net.trial x a = weak.trial x a := by
  funext y
  rw [trial, trial, h.assigned_eq]

theorem Within.violated_iff (h : net.Within weak) :
    Check.Violated net c ↔ Check.Violated weak c := by
  rw [Check.Violated, Check.Violated, h.pending_eq, h.assigned_eq]

theorem Within.assigning (h : net.Within weak) (hx : net.Knows x) (a : Int) :
    (net.assigning x a).Within (weak.assigning x a) where
  size_eq := by rw [size_vars_assigning, size_vars_assigning, h.size_eq]
  assigned_eq := by
    obtain ⟨v, hv⟩ := hx
    rw [assigned_assigning_eq_trial ⟨v, hv⟩, assigned_assigning_eq_trial (h.get? hv), h.trial_eq]
  sublist {y v w} hv hw := by
    rw [get?_assigning] at hv hw
    by_cases hy : y = x
    · rw [if_pos hy] at hv hw
      obtain ⟨v₀, hv₀, rfl⟩ := Option.map_eq_some_iff.mp hv
      obtain ⟨w₀, hw₀, rfl⟩ := Option.map_eq_some_iff.mp hw
      have hsub := h.sublist hv₀ hw₀
      exact hsub
    · rw [if_neg hy] at hv hw
      exact h.sublist hv hw
  outlived hb := by
    obtain ⟨b, hb⟩ := h.outlived (has_assigning.mp hb)
    exact ⟨b, has_assigning.mpr hb⟩

theorem Within.without (h : net.Within weak)
    (hleft : ∀ {x a}, (net.without rs).Has x a → (⟨x, a⟩ : Removal) ∉ rs')
    (houtlived : net.OutlivedBy (net.without rs)) :
    (net.without rs).Within (weak.without rs') where
  size_eq := by rw [size_vars_without, size_vars_without, h.size_eq]
  assigned_eq := by
    funext x
    rw [assigned_without, assigned_without, h.assigned_eq]
  sublist {x v w} hv hw := by
    rw [get?_without] at hv hw
    obtain ⟨v₀, hv₀, rfl⟩ := Option.map_eq_some_iff.mp hv
    obtain ⟨w₀, hw₀, rfl⟩ := Option.map_eq_some_iff.mp hw
    rw [Variable.currentDomain_without, Variable.currentDomain_without]
    refine sublist_filter_of_imp (h.sublist hv₀ hw₀) fun a ha hkept => ?_
    have hhas : net.Has x a := ⟨v₀, hv₀, Variable.mem_currentDomain.mp ha⟩
    have hnot := hleft (has_without.mpr ⟨hhas, by simpa using hkept⟩)
    simpa using hnot
  outlived ha := by
    obtain ⟨b, hb⟩ := h.outlived (has_without.mp ha).1
    exact houtlived hb

end Network

theorem Propagator.Behaves.within (h : p.Behaves trigger net j outcome)
    (h' : p'.Behaves trigger weak j' outcome') (hwithin : net.Within weak)
    (hstatus : outcome.status = .consistent)
    (hdiscards : ∀ {x a}, (net.without outcome.removed).Has x a →
      ¬p'.kind.Discards weak trigger ⟨x, a⟩) :
    (net.without outcome.removed).Within (weak.without outcome'.removed) := by
  refine hwithin.without (fun ha hmem => hdiscards ha (h'.discards _ hmem)) ?_
  exact fun ha => h.network_eq ▸ h.outlived hstatus ha

theorem Propagator.Behaves.ne_emptyDomain (h' : p'.Behaves trigger weak j' outcome')
    (hwithin : net.Within weak)
    (hafter : (net.without rs).Within (weak.without outcome'.removed))
    (houtlived : net.OutlivedBy (net.without rs)) :
    outcome'.status ≠ .inconsistent (.emptyDomain x) := by
  intro hempty
  have hwiped := h'.emptied hempty
  obtain ⟨before, a, hlast⟩ := hwiped.last
  have ha : weak.Has x a := h'.records.current ⟨x, a⟩ (by rw [hlast]; simp)
  obtain ⟨b, hb⟩ := hwithin.outlived ha
  obtain ⟨d, hd⟩ := houtlived hb
  exact hwiped.empty d (hafter.has hd)

/-- What arc consistency leaves, forward checking has no reason to discard: the support of a last
value is the value itself. -/
theorem Propagator.Behaves.not_unfit (h : p.Behaves trigger net j outcome) (hkind : p.kind = .arc)
    (hstatus : outcome.status = .consistent) (hwithin : net.Within weak)
    (hconstraints : net.constraints = weak.constraints)
    (ha : (net.without outcome.removed).Has x a) : ¬weak.Unfit trigger ⟨x, a⟩ := by
  rintro ⟨c, ⟨⟨id, hc⟩, htrigger⟩, hpending, hnot⟩
  rw [← hwithin.pending_eq] at hpending
  have hx : x ∈ net.pending c := hpending ▸ List.mem_singleton_self x
  have hsettles := h.settles hstatus
  rw [hkind] at hsettles
  have hsupports := hsettles.1 id c (hconstraints ▸ hc) (fun y hy => .inl (htrigger y hy))
    (Network.mem_pending.mp hx).1 ha
  apply hnot
  rw [← hwithin.trial_eq, ← Network.trial_without]
  refine hsupports.satisfiedBy_trial fun y hy hyx => Option.ne_none_iff_exists'.mp fun hfree => ?_
  rw [Network.assigned_without] at hfree
  have hmem := Network.mem_pending.mpr ⟨hy, hfree⟩
  rw [hpending] at hmem
  exact hyx (List.mem_singleton.mp hmem)

/-- Where a stronger call is consistent and violates no constraint of the trigger, a weaker one is
consistent and leaves no fewer values. -/
theorem Propagator.Behaves.dominates (h : p.Behaves trigger net j outcome)
    (h' : p'.Behaves trigger weak j' outcome') (hkinds : p.kind.Dominates p'.kind)
    (hwithin : net.Within weak) (hconstraints : net.constraints = weak.constraints)
    (hstatus : outcome.status = .consistent)
    (hintact : ∀ x id c, trigger = some x → net.constraints.get? id = some c → x ∈ c.scope →
      ¬Check.Violated net c) :
    outcome'.status = .consistent ∧
      (net.without outcome.removed).Within (weak.without outcome'.removed) := by
  have houtlived : net.OutlivedBy (net.without outcome.removed) :=
    fun ha => h.network_eq ▸ h.outlived hstatus ha
  have hafter : (net.without outcome.removed).Within (weak.without outcome'.removed) := by
    refine h.within h' hwithin hstatus fun {x a} ha => ?_
    generalize hkind : p.kind = kind at hkinds
    generalize p'.kind = weaker at hkinds ⊢
    cases hkinds with
    | check => exact id
    | forward => exact h.not_unfit hkind hstatus hwithin hconstraints ha
  refine ⟨?_, hafter⟩
  cases hstatus' : outcome'.status with
  | consistent => rfl
  | inconsistent why =>
    have hrefutes := h'.refutes why hstatus'
    have hnot (x : VariableId) : why ≠ .emptyDomain x := fun hwhy =>
      h'.ne_emptyDomain hwithin hafter houtlived (hwhy ▸ hstatus')
    cases hkind' : p'.kind with
    | check =>
      rw [hkind'] at hrefutes
      obtain ⟨x, id, c, hx, hc, hmem, -, hviolated⟩ := hrefutes
      exact absurd (hwithin.violated_iff.mpr hviolated) (hintact x id c hx (hconstraints ▸ hc) hmem)
    | forward | arc =>
      rw [hkind'] at hrefutes
      obtain ⟨x, hx⟩ := hrefutes
      exact absurd hx (hnot x)

end FiniteDomain
