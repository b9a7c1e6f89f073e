import FiniteDomain.Proofs.Propagation.Propagator
/-!
# What successful calls keep up

From a network without assigned variables on, each kind of propagator keeps something up from one
consistent decision to the next. At a leaf it says that all constraints are satisfied.
-/
namespace FiniteDomain

def Network.Intact (net : Network) : Prop :=
  ∀ id c, net.constraints.get? id = some c → ¬Check.Violated net c

/-- What holds after a call that succeeded, if it held before the decision. -/
def PropagatorKind.Keeps (kind : PropagatorKind) (net : Network) : Prop :=
  match kind with
  | check => ∀ id c, net.constraints.get? id = some c → ¬Check.Violated net c
  | forward => (∀ id c, net.constraints.get? id = some c → ¬Check.Violated net c) ∧
      ∀ id c x a, net.constraints.get? id = some c → net.pending c = [x] → net.Has x a →
        c.SatisfiedBy (net.trial x a)
  | arc => (∀ id c, net.constraints.get? id = some c → net.Consistent c) ∧
      ∀ x a b, net.assigned x = some b → (net.Has x a ↔ a = b)

variable {p : Propagator} {net net' : Network} {trigger : Option VariableId} {j : Journal}
  {outcome : Outcome} {c : Constraint} {id : ConstraintId} {x y : VariableId} {a b : Int}
  {rs : List Removal}

theorem Constraint.Supports.satisfiedBy_trial {D : VariableId → Int → Prop}
    (h : c.Supports (net.Choice D) x a)
    (hothers : ∀ y ∈ c.scope, y ≠ x → ∃ b, net.assigned y = some b) :
    c.SatisfiedBy (net.trial x a) := by
  obtain ⟨t, ht, hsupport⟩ := h
  refine ⟨t, ht, forall₂_imp_mem hsupport fun y b hy hb => ?_⟩
  rw [Network.trial]
  by_cases hyx : y = x
  · rw [if_pos hyx] at hb ⊢
    rw [hb]
  · obtain ⟨d, hd⟩ := hothers y hy hyx
    rw [if_neg hyx, Network.choice_of_assigned hd] at hb
    rw [if_neg hyx, hd, hb]

theorem Network.assigned_assigning_eq_trial (hx : net.Knows x) :
    (net.assigning x a).assigned = net.trial x a := by
  funext y
  exact assigned_assigning hx

theorem Network.trial_eq_assigned (hx : net.assigned x = some a) : net.trial x a = net.assigned := by
  funext y
  rw [trial]
  by_cases hyx : y = x
  · rw [if_pos hyx, hyx, hx]
  · rw [if_neg hyx]

theorem Network.trial_without : (net.without rs).trial x a = net.trial x a := by
  funext y
  rw [trial, trial, assigned_without]

theorem Network.pending_without : (net.without rs).pending c = net.pending c :=
  pending_congr fun y _ => assigned_without net rs y

theorem Network.pending_assigning (hx : net.Knows x) :
    (net.assigning x a).pending c = (net.pending c).filter (· ≠ x) := by
  rw [pending, pending, List.filter_filter]
  apply List.filter_congr
  intro y _
  rw [assigned_assigning hx]
  by_cases hyx : y = x <;> simp [hyx]

theorem Network.pending_assigning_of_not_mem (hx : net.Knows x) (hmem : x ∉ c.scope) :
    (net.assigning x a).pending c = net.pending c := by
  rw [pending_assigning hx, List.filter_eq_self]
  intro y hy
  exact decide_eq_true fun hyx => hmem (hyx ▸ (mem_pending.mp hy).1)

theorem Network.pending_eq_singleton (hwf : net.WellFormed)
    (hc : net.constraints.get? id = some c) (hmem : x ∈ c.scope) (hx : net.assigned x = none)
    (hnil : (net.assigning x a).pending c = []) : net.pending c = [x] := by
  have hfits := hwf.fits hc
  rw [pending_assigning (hfits.known x hmem), List.filter_eq_nil_iff] at hnil
  have hall : ∀ y ∈ net.pending c, y = x := by
    intro y hy
    by_contra hyx
    exact hnil y hy (decide_eq_true hyx)
  have hxmem : x ∈ net.pending c := mem_pending.mpr ⟨hmem, hx⟩
  have hnodup : (net.pending c).Nodup := hfits.nodup.sublist List.filter_sublist
  cases hp : net.pending c with
  | nil =>
    rw [hp] at hxmem
    cases hxmem
  | cons y ys =>
    rw [hp] at hall hnodup
    obtain rfl := hall y (by simp)
    cases ys with
    | nil => rfl
    | cons z zs =>
      obtain rfl := hall z (by simp)
      simp at hnodup

theorem Check.violated_without : Violated (net.without rs) c ↔ Violated net c := by
  have hassigned : (net.without rs).assigned = net.assigned := funext (Network.assigned_without net rs)
  rw [Violated, Violated, Network.pending_without, hassigned]

theorem Check.violated_assigning_of_not_mem (hx : net.Knows x) (hmem : x ∉ c.scope) :
    Violated (net.assigning x a) c ↔ Violated net c := by
  have hcongr : c.SatisfiedBy (net.assigning x a).assigned ↔ c.SatisfiedBy net.assigned := by
    apply Constraint.satisfiedBy_congr
    intro y hy
    have hyx : y ≠ x := fun hyx => hmem (hyx ▸ hy)
    rw [Network.assigned_assigning hx, if_neg hyx]
  rw [Violated, Violated, Network.pending_assigning_of_not_mem hx hmem, hcongr]

theorem Check.not_violated_of_free (hwf : net.WellFormed) (hfree : net.Free)
    (hc : net.constraints.get? id = some c) : ¬Violated net c := by
  intro h
  obtain ⟨hnil, -⟩ := h
  obtain ⟨x, hx⟩ := List.exists_mem_of_ne_nil _ (hwf.fits hc).nonempty
  have hmem : x ∈ net.pending c := Network.mem_pending.mpr ⟨hx, hfree x⟩
  rw [hnil] at hmem
  cases hmem

theorem Propagator.Behaves.keeps_root (h : p.Behaves none net j outcome) (hwf : net.WellFormed)
    (hfree : net.Free) (hstatus : outcome.status = .consistent) :
    p.kind.Keeps (net.without outcome.removed) := by
  have hsettles := h.settles hstatus
  have hintact : ∀ id c, net.constraints.get? id = some c →
      ¬Check.Violated (net.without outcome.removed) c :=
    fun id c hc hviolated =>
      Check.not_violated_of_free hwf hfree hc (Check.violated_without.mp hviolated)
  cases hkind : p.kind with
  | check => exact hintact
  | forward =>
    rw [hkind] at hsettles
    refine ⟨hintact, fun id c x a hc hpending ha => ?_⟩
    rw [Network.pending_without] at hpending
    rw [Network.trial_without]
    exact hsettles c x a ⟨⟨id, hc⟩, fun y hy => nomatch hy⟩ hpending ha
  | arc =>
    rw [hkind] at hsettles
    refine ⟨fun id c hc => hsettles.1 id c hc fun y hy => (nomatch hy), fun x a b hx => ?_⟩
    rw [Network.assigned_without, hfree] at hx
    cases hx

theorem Check.not_violated_decision (hx : net.Knows x) (hkept : ¬Violated net c)
    (hnew : x ∈ c.scope → ¬Violated (net.assigning x a) c) :
    ¬Violated ((net.assigning x a).without rs) c := by
  rw [violated_without]
  by_cases hmem : x ∈ c.scope
  · exact hnew hmem
  · rw [violated_assigning_of_not_mem hx hmem]
    exact hkept

/-- A decision that completes a scope was tried as its last value, and so violates nothing. -/
theorem Forward.not_violated_decision (hwf : net.WellFormed)
    (htried : ∀ a, net.pending c = [x] → net.Has x a → c.SatisfiedBy (net.trial x a))
    (hc : net.constraints.get? id = some c) (hx : net.assigned x = none) (ha : net.Has x a)
    (hmem : x ∈ c.scope) : ¬Check.Violated (net.assigning x a) c := by
  intro h
  obtain ⟨hnil, hnot⟩ := h
  -- The decision was tried when the scope had no other variable left.
  have hpending := Network.pending_eq_singleton hwf hc hmem hx hnil
  apply hnot
  rw [Network.assigned_assigning_eq_trial ha.knows]
  exact htried a hpending ha

theorem Forward.satisfiedBy_trial_decision (ha : net.Has x a)
    (htried : ∀ id c y d, net.constraints.get? id = some c → net.pending c = [y] → net.Has y d →
      c.SatisfiedBy (net.trial y d))
    (hsettles : PropagatorKind.forward.Settles (net.assigning x a) (some x)
      ((net.assigning x a).without rs))
    (hc : net.constraints.get? id = some c) (hpending : ((net.assigning x a).without rs).pending c = [y])
    (hb : ((net.assigning x a).without rs).Has y b) :
    c.SatisfiedBy (((net.assigning x a).without rs).trial y b) := by
  rw [Network.pending_without] at hpending
  rw [Network.trial_without]
  by_cases hmem : x ∈ c.scope
  · refine hsettles c y b ⟨⟨id, hc⟩, fun z hz => ?_⟩ hpending hb
    exact Option.some.inj hz ▸ hmem
  · rw [Network.pending_assigning_of_not_mem ha.knows hmem] at hpending
    have hb' : net.Has y b := Network.has_assigning.mp (Network.has_without.mp hb).1
    refine (Constraint.satisfiedBy_congr fun z hz => ?_).mpr (htried id c y b hc hpending hb')
    have hzx : z ≠ x := fun hzx => hmem (hzx ▸ hz)
    rw [Network.trial, Network.trial, Network.assigned_assigning ha.knows, if_neg hzx]

private theorem forward_keeps_decision (hwf : net.WellFormed)
    (hkeeps : PropagatorKind.forward.Keeps net) (hx : net.assigned x = none) (ha : net.Has x a)
    (hsettles : PropagatorKind.forward.Settles (net.assigning x a) (some x)
      ((net.assigning x a).without rs)) :
    PropagatorKind.forward.Keeps ((net.assigning x a).without rs) := by
  constructor
  · intro id c hc
    refine Check.not_violated_decision ha.knows (hkeeps.1 id c hc) ?_
    exact Forward.not_violated_decision hwf (fun a => hkeeps.2 id c x a hc) hc hx ha
  · intro id c y d hc hpending hd
    exact Forward.satisfiedBy_trial_decision ha hkeeps.2 hsettles hc hpending hd

private theorem arc_keeps_decision (hkeeps : PropagatorKind.arc.Keeps net) (ha : net.Has x a)
    (hsettles : PropagatorKind.arc.Settles (net.assigning x a) (some x)
      ((net.assigning x a).without rs))
    (houtlived : (net.assigning x a).OutlivedBy ((net.assigning x a).without rs)) :
    PropagatorKind.arc.Keeps ((net.assigning x a).without rs) := by
  refine ⟨fun id c hc => hsettles.1 id c hc fun y hy => ?_, fun y d b hy => ?_⟩
  · by_cases hmem : x ∈ c.scope
    · exact .inl (Option.some.inj hy ▸ hmem)
    · refine .inr ((Network.consistent_congr ?_ ?_).mpr (hkeeps.1 id c hc))
      · exact fun z _ d => Network.has_assigning
      · intro z hz
        have hzx : z ≠ x := fun hzx => hmem (hzx ▸ hz)
        rw [Network.assigned_assigning ha.knows, if_neg hzx]
  · have hassigned := hy
    rw [Network.assigned_without, Network.assigned_assigning ha.knows] at hassigned
    have honly : ∀ e, ((net.assigning x a).without rs).Has y e → e = b := by
      intro e he
      by_cases hyx : y = x
      · exact hsettles.2 (hyx ▸ rfl) hy he
      · rw [if_neg hyx] at hassigned
        exact (hkeeps.2 y e b hassigned).mp (Network.has_assigning.mp (Network.has_without.mp he).1)
    have hsome : ∃ e, net.Has y e := by
      by_cases hyx : y = x
      · exact ⟨a, hyx ▸ ha⟩
      · rw [if_neg hyx] at hassigned
        exact ⟨b, (hkeeps.2 y b b hassigned).mpr rfl⟩
    obtain ⟨e, he⟩ := hsome
    obtain ⟨e, he⟩ := houtlived (Network.has_assigning.mpr he)
    constructor
    · exact honly d
    · intro h
      subst h
      exact honly e he ▸ he

theorem Propagator.Behaves.keeps_decision (h : p.Behaves (some x) (net.assigning x a) j outcome)
    (hwf : net.WellFormed) (hkeeps : p.kind.Keeps net) (hx : net.assigned x = none)
    (ha : net.Has x a) (hstatus : outcome.status = .consistent) :
    p.kind.Keeps ((net.assigning x a).without outcome.removed) := by
  have hsettles := h.settles hstatus
  have houtlived : (net.assigning x a).OutlivedBy ((net.assigning x a).without outcome.removed) :=
    fun he => h.network_eq ▸ h.outlived hstatus he
  cases hkind : p.kind with
  | check =>
    rw [hkind] at hsettles hkeeps
    intro id c hc
    exact Check.not_violated_decision ha.knows (hkeeps id c hc) (hsettles x id c rfl hc)
  | forward =>
    rw [hkind] at hsettles hkeeps
    exact forward_keeps_decision hwf hkeeps hx ha hsettles
  | arc =>
    rw [hkind] at hsettles hkeeps
    exact arc_keeps_decision hkeeps ha hsettles houtlived

/-- At an assigned trigger with its value current, a consistent call of arc consistency leaves no
violated constraint of the trigger: the value has a support. -/
theorem Propagator.Behaves.not_violated_of_arc (h : p.Behaves (some x) net j outcome)
    (hkind : p.kind = .arc) (hstatus : outcome.status = .consistent) (hx : net.assigned x = some a)
    (ha : net.Has x a) (hc : net.constraints.get? id = some c) (hmem : x ∈ c.scope) :
    ¬Check.Violated net c := by
  rintro ⟨hnil, hnot⟩
  have hsettles := h.settles hstatus
  rw [hkind] at hsettles
  obtain ⟨b, hb⟩ := h.outlived hstatus ha
  rw [h.network_eq] at hb
  have hba : b = a := hsettles.2 rfl (by rw [Network.assigned_without, hx]) hb
  have hsupports := hsettles.1 id c hc (fun y hy => .inl (Option.some.inj hy ▸ hmem)) hmem hb
  obtain ⟨t, ht⟩ := Network.pending_eq_nil_iff.mp hnil
  have hsatisfied := hsupports.satisfiedBy_trial fun y hy _ => by
    rw [Network.assigned_without]
    exact exists_of_forall₂ ht hy
  rw [Network.trial_without, hba, Network.trial_eq_assigned hx] at hsatisfied
  exact hnot hsatisfied

theorem PropagatorKind.Keeps.intact {kind : PropagatorKind} (h : kind.Keeps net)
    (hwf : net.WellFormed) : net.Intact := by
  cases kind with
  | check => exact h
  | forward => exact h.1
  | arc =>
    rintro id c hc ⟨hnil, hnot⟩
    obtain ⟨t, ht⟩ := Network.pending_eq_nil_iff.mp hnil
    obtain ⟨x, hx⟩ := List.exists_mem_of_ne_nil _ (hwf.fits hc).nonempty
    obtain ⟨a, ha⟩ := exists_of_forall₂ ht hx
    have hsupports := h.1 id c hc hx ((h.2 x a a ha).mpr rfl)
    rw [← Network.trial_eq_assigned ha] at hnot
    exact hnot (hsupports.satisfiedBy_trial fun y hy _ => exists_of_forall₂ ht hy)

/-- Where every variable is assigned, what was kept up satisfies every constraint. -/
theorem PropagatorKind.Keeps.satisfiedBy {kind : PropagatorKind} (h : kind.Keeps net)
    (hwf : net.WellFormed) (hall : ∀ x, net.Knows x → ∃ a, net.assigned x = some a)
    (hc : net.constraints.get? id = some c) : c.SatisfiedBy net.assigned := by
  have hassigned : ∀ x ∈ c.scope, ∃ a, net.assigned x = some a :=
    fun x hx => hall x ((hwf.fits hc).known x hx)
  by_contra hnot
  exact h.intact hwf id c hc ⟨Network.pending_eq_nil_iff.mpr (exists_forall₂ hassigned), hnot⟩

end FiniteDomain
