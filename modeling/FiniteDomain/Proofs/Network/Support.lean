import FiniteDomain.Constraint.Support
import FiniteDomain.Proofs.Network.Completion
/-!
# Supports

Whether a value can be completed to a satisfying tuple is said with a choice of values for the
other variables, so that current domains, smaller families of values and single solutions are all
instances. The two ways of looking for a support give this answer.
-/
namespace FiniteDomain

/-- Some satisfying tuple takes `a` at `x` and a value that is offered at every other variable. -/
def Constraint.Supports (c : Constraint) (offered : VariableId → Int → Prop) (x : VariableId)
    (a : Int) : Prop :=
  ∃ t ∈ c.tuples, List.Forall₂ (fun y b => if y = x then b = a else offered y b) c.scope t

/-- An assigned variable offers its assigned value, any other the values that `D` has for it. -/
def Network.Choice (net : Network) (D : VariableId → Int → Prop) (x : VariableId) (a : Int) :
    Prop :=
  match net.assigned x with
  | some b => a = b
  | none => D x a

/-- Every current value of the scope has a support. -/
def Network.Consistent (net : Network) (c : Constraint) : Prop :=
  ∀ {x a}, x ∈ c.scope → net.Has x a → c.Supports (net.Choice net.Has) x a

variable {net net' : Network} {c : Constraint} {x y : VariableId} {a b : Int} {s : Solution}

theorem forall₂_imp_mem {α β : Type} {R S : α → β → Prop} {as : List α} {bs : List β}
    (h : List.Forall₂ R as bs) (himp : ∀ a b, a ∈ as → R a b → S a b) : List.Forall₂ S as bs := by
  induction h with
  | nil => exact .nil
  | @cons a b as bs hab _ ih =>
    exact .cons (himp a b (by simp) hab) (ih fun a b ha => himp a b (List.mem_cons_of_mem _ ha))

theorem exists_of_forall₂ {α β : Type} {R : α → β → Prop} {as : List α} {bs : List β} {a : α}
    (h : List.Forall₂ R as bs) (ha : a ∈ as) : ∃ b, R a b := by
  induction h with
  | nil => cases ha
  | cons hab _ ih =>
    rcases List.mem_cons.mp ha with rfl | ha
    · exact ⟨_, hab⟩
    · exact ih ha

theorem exists_mem_of_forall₂ {α β : Type} {R : α → β → Prop} {as : List α} {bs : List β}
    (h : List.Forall₂ R as bs) :
    (∀ a ∈ as, ∃ b ∈ bs, R a b) ∧ ∀ b ∈ bs, ∃ a ∈ as, R a b := by
  induction h with
  | nil => simp
  | @cons a b as bs hab _ ih =>
    obtain ⟨hleft, hright⟩ := ih
    constructor
    · intro a' ha'
      rcases List.mem_cons.mp ha' with rfl | ha'
      · exact ⟨b, by simp, hab⟩
      · obtain ⟨b', hb', hr⟩ := hleft a' ha'
        exact ⟨b', by simp [hb'], hr⟩
    · intro b' hb'
      rcases List.mem_cons.mp hb' with rfl | hb'
      · exact ⟨a, by simp, hab⟩
      · obtain ⟨a', ha', hr⟩ := hright b' hb'
        exact ⟨a', by simp [ha'], hr⟩

theorem Constraint.Supports.mono {offered offered' : VariableId → Int → Prop}
    (h : c.Supports offered x a)
    (himp : ∀ y b, y ∈ c.scope → y ≠ x → offered y b → offered' y b) : c.Supports offered' x a := by
  obtain ⟨t, ht, hall⟩ := h
  refine ⟨t, ht, forall₂_imp_mem hall fun y b hy hb => ?_⟩
  by_cases hyx : y = x
  · rwa [if_pos hyx] at hb ⊢
  · rw [if_neg hyx] at hb ⊢
    exact himp y b hy hyx hb

theorem Network.Choice.mono {D D' : VariableId → Int → Prop} (h : net.Choice D x a)
    (himp : D x a → D' x a) : net.Choice D' x a := by
  unfold Choice at h ⊢
  split at h
  · exact h
  · exact himp h

theorem Network.choice_of_assigned {D : VariableId → Int → Prop} (hx : net.assigned x = some b) :
    net.Choice D x a ↔ a = b := by
  rw [Choice, hx]

theorem Network.choice_congr {D D' : VariableId → Int → Prop}
    (hx : net.assigned x = net'.assigned x) (hD : D x a ↔ D' x a) :
    net.Choice D x a ↔ net'.Choice D' x a := by
  unfold Choice
  rw [hx]
  cases net'.assigned x with
  | some b => exact Iff.rfl
  | none => exact hD

theorem Network.consistent_congr (hhas : ∀ y ∈ c.scope, ∀ b, net.Has y b ↔ net'.Has y b)
    (hassigned : ∀ y ∈ c.scope, net.assigned y = net'.assigned y) :
    net.Consistent c ↔ net'.Consistent c := by
  constructor
  · intro h x a hx ha
    refine (h hx ((hhas x hx a).mpr ha)).mono fun y b hy _ hb => ?_
    exact (choice_congr (hassigned y hy) (hhas y hy b)).mp hb
  · intro h x a hx ha
    refine (h hx ((hhas x hx a).mp ha)).mono fun y b hy _ hb => ?_
    exact (choice_congr (hassigned y hy) (hhas y hy b)).mpr hb

theorem Network.CompletedBy.supports (h : net.CompletedBy s) {id : ConstraintId}
    (hc : net.constraints.get? id = some c) (hs : s.get? x = some a) :
    c.Supports (net.Choice fun y b => s.get? y = some b) x a := by
  obtain ⟨t, ht, hall⟩ := h.satisfied hc
  refine ⟨t, ht, hall.imp fun y b hb => ?_⟩
  by_cases hyx : y = x
  · rw [if_pos hyx]
    rw [hyx, hs] at hb
    exact (Option.some.inj hb).symm
  · rw [if_neg hyx]
    unfold Choice
    cases hy : net.assigned y with
    | some d => exact h.eq_assigned hy hb
    | none => exact hb

private theorem anyCombination_eq_true_iff {accepts : List Int → Bool} {lists : List (List Int)} :
    anyCombination accepts lists = true ↔
      ∃ t, List.Forall₂ (fun l b => b ∈ l) lists t ∧ accepts t = true := by
  induction lists generalizing accepts with
  | nil => simp [anyCombination]
  | cons l lists ih =>
    simp only [anyCombination, List.any_eq_true, ih, List.forall₂_cons_left_iff]
    constructor
    · intro h
      obtain ⟨b, hb, t, ht, h⟩ := h
      exact ⟨b :: t, ⟨b, t, hb, ht, rfl⟩, h⟩
    · intro h
      obtain ⟨_, ⟨b, t, hb, ht, rfl⟩, h⟩ := h
      exact ⟨b, hb, t, ht, h⟩

theorem drawnFrom_eq_true_iff {lists : List (List Int)} {t : List Int}
    (hlen : lists.length = t.length) :
    drawnFrom lists t = true ↔ List.Forall₂ (fun l b => b ∈ l) lists t := by
  induction lists generalizing t with
  | nil =>
    have ht : t = [] := List.length_eq_zero_iff.mp hlen.symm
    simp [ht, drawnFrom]
  | cons l lists ih =>
    cases t with
    | nil => simp at hlen
    | cons b t => simp [drawnFrom, ih (Nat.succ.inj hlen)]

theorem TupleSet.any_eq (tuples : TupleSet) (test : List Int → Bool) :
    tuples.any test = tuples.toList.any test := by
  rw [any, Std.TreeSet.forIn_eq_forIn_toList]
  change _ = tuples.tree.toList.any test
  generalize tuples.tree.toList = ts
  induction ts with
  | nil => rfl
  | cons t ts ih =>
    rw [List.forIn_cons]
    cases ht : test t
    · simpa [ht] using ih
    · simp [ht]

/-- Both ways of looking for a support find one exactly when some satisfying tuple takes a
candidate at every position. -/
theorem Constraint.admitsSome_eq_true_iff {lists : List (List Int)}
    (hlen : ∀ t ∈ c.tuples, lists.length = t.length) :
    c.admitsSome lists = true ↔ ∃ t ∈ c.tuples, List.Forall₂ (fun l b => b ∈ l) lists t := by
  rw [admitsSome]
  by_cases hempty : lists.any List.isEmpty = true
  · rw [if_pos hempty]
    constructor
    · intro h
      cases h
    · intro h
      obtain ⟨t, _, ht⟩ := h
      obtain ⟨l, hl, hnil⟩ := List.any_eq_true.mp hempty
      obtain ⟨b, hb⟩ := exists_of_forall₂ ht hl
      rw [List.isEmpty_iff.mp hnil] at hb
      cases hb
  · rw [if_neg hempty]
    by_cases hfew : numCombinations lists ≤ c.numTuples
    · rw [if_pos hfew, anyCombination_eq_true_iff]
      constructor
      · intro h
        obtain ⟨t, ht, hc⟩ := h
        exact ⟨t, hc, ht⟩
      · intro h
        obtain ⟨t, hc, ht⟩ := h
        exact ⟨t, ht, hc⟩
    · rw [if_neg hfew, TupleSet.any_eq, List.any_eq_true]
      constructor
      · intro h
        obtain ⟨t, ht, hdrawn⟩ := h
        have hmem := TupleSet.mem_toList.mp ht
        exact ⟨t, hmem, (drawnFrom_eq_true_iff (hlen t hmem)).mp hdrawn⟩
      · intro h
        obtain ⟨t, ht, hall⟩ := h
        exact ⟨t, TupleSet.mem_toList.mpr ht, (drawnFrom_eq_true_iff (hlen t ht)).mpr hall⟩

private theorem candidatesOf_eq_ok (hy : net.Knows y) (x : VariableId) (a : Int) :
    ∃ l, Constraint.candidatesOf net.vars x a y = .ok l ∧
      ∀ b, b ∈ l ↔ if y = x then b = a else net.Choice net.Has y b := by
  obtain ⟨v, hv⟩ := hy
  by_cases hyx : y = x
  · exact ⟨[a], if_pos hyx, fun b => by simp [hyx]⟩
  · have hassigned : net.assigned y = v.assignedValue := by rw [Network.assigned, hv, Option.bind_some]
    have hhas (b : Int) : net.Has y b ↔ b ∈ v.currentDomain := by
      simp [Network.Has, hv, Variable.mem_currentDomain]
    rw [Constraint.candidatesOf, if_neg hyx, Store.fetch_of_get? hv]
    refine ⟨_, rfl, fun b => ?_⟩
    rw [if_neg hyx, Network.Choice, hassigned]
    cases v.assignedValue with
    | some d => exact List.mem_singleton
    | none => exact (hhas b).symm

theorem exists_forall₂ {α β : Type} {R : α → β → Prop} {as : List α}
    (h : ∀ a ∈ as, ∃ b, R a b) : ∃ bs, List.Forall₂ R as bs := by
  induction as with
  | nil => exact ⟨[], .nil⟩
  | cons a as ih =>
    obtain ⟨b, hb⟩ := h a (by simp)
    obtain ⟨bs, hbs⟩ := ih fun a' ha' => h a' (List.mem_cons_of_mem _ ha')
    exact ⟨b :: bs, .cons hb hbs⟩

theorem forall₂_mem_iff {P : VariableId → Int → Prop} {xs : List VariableId}
    {lists : List (List Int)} (h : List.Forall₂ (fun y l => ∀ b, b ∈ l ↔ P y b) xs lists)
    {t : List Int} : List.Forall₂ (fun l b => b ∈ l) lists t ↔ List.Forall₂ P xs t := by
  induction h generalizing t with
  | nil => rw [List.forall₂_nil_left_iff, List.forall₂_nil_left_iff]
  | cons hl _ ih => simp only [List.forall₂_cons_left_iff, hl, ih]

theorem Constraint.Fits.length_eq (h : c.Fits net) {t : List Int} (ht : t ∈ c.tuples) :
    c.scope.length = t.length :=
  (h.tuples t ht).length_eq

/-- The question for a support is answered, and by the existence of a satisfying tuple. -/
theorem Constraint.hasSupport_eq_ok (h : c.Fits net) (x : VariableId) (a : Int) :
    ∃ found, c.hasSupport net.vars x a = .ok found ∧
      (found = true ↔ c.Supports (net.Choice net.Has) x a) := by
  obtain ⟨lists, hlists⟩ := exists_forall₂ fun y hy => candidatesOf_eq_ok (h.known y hy) x a
  have hmapM : c.scope.mapM (candidatesOf net.vars x a) = .ok lists :=
    mapM_eq_ok.mpr (hlists.imp fun _ _ hl => hl.1)
  have hchoice := fun t => forall₂_mem_iff (t := t) (hlists.imp fun _ _ hl => hl.2)
  refine ⟨c.admitsSome lists, by rw [hasSupport, hmapM]; rfl, ?_⟩
  rw [admitsSome_eq_true_iff fun t ht => hlists.length_eq.symm.trans (h.length_eq ht), Supports]
  simp only [hchoice]

end FiniteDomain
