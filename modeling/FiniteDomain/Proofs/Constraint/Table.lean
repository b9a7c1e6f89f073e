import FiniteDomain.Constraint.Table
import FiniteDomain.Proofs.Network.Scope
/-!
# Tables of conditions

The builders of constraints write out the tuples of the full domains that meet a condition. Such a
constraint fits its network, and says of values from the full domains no more than its condition.
-/
namespace FiniteDomain

def Network.InDomain (net : Network) (x : VariableId) (a : Int) : Prop :=
  ∃ v, net.vars.get? x = some v ∧ a ∈ v.fullDomain

/-- Of the tuples with values from the full domains, those that meet the condition are allowed. -/
structure Constraint.Tabulates (c : Constraint) (net : Network) (scope : List VariableId)
    (condition : List Int → Prop) : Prop where
  scope_eq : c.scope = scope
  mem_iff : ∀ t, t ∈ c.tuples ↔ List.Forall₂ net.InDomain scope t ∧ condition t

variable {net : Network} {c : Constraint} {scope : List VariableId} {x y : VariableId}
  {condition : List Int → Prop} {value : VariableId → Option Int} {lists : List (List Int)}
  {t used : List Int}

theorem mem_combinations :
    t ∈ combinations lists ↔ List.Forall₂ (fun values a => a ∈ values) lists t := by
  induction lists generalizing t with
  | nil => simp [combinations]
  | cons values lists ih =>
    cases t with
    | nil => simp [combinations]
    | cons a t => simp [combinations, ih]

theorem nodup_combinations (h : ∀ values ∈ lists, values.Nodup) : (combinations lists).Nodup := by
  induction lists with
  | nil => exact List.nodup_singleton []
  | cons values rest ih =>
    obtain ⟨hvalues, hrest⟩ := List.forall_mem_cons.mp h
    rw [combinations, List.nodup_flatMap]
    constructor
    · intro b _
      exact (ih hrest).map (List.cons_injective (a := b))
    · apply hvalues.imp
      intro b d hne t hb hd
      obtain ⟨_, -, rfl⟩ := List.mem_map.mp hb
      obtain ⟨_, -, heq⟩ := List.mem_map.mp hd
      exact hne (List.cons.inj heq).1.symm

private theorem nodup_cons_avoiding_iff {a : Int} : ((a :: t).Nodup ∧ ∀ b ∈ a :: t, b ∉ used) ↔
    a ∉ used ∧ t.Nodup ∧ ∀ b ∈ t, b ∉ a :: used := by
  rw [List.nodup_cons, List.forall_mem_cons]
  simp only [List.mem_cons, not_or]
  constructor
  · rintro ⟨⟨hnot, hnodup⟩, ha, havoid⟩
    exact ⟨ha, hnodup, fun b hb => ⟨fun heq => hnot (heq ▸ hb), havoid b hb⟩⟩
  · rintro ⟨ha, hnodup, havoid⟩
    exact ⟨⟨fun hmem => (havoid a hmem).1 rfl, hnodup⟩, ha, fun b hb => (havoid b hb).2⟩

/-- Of all combinations, in their order, those are left that repeat no value and avoid the used
ones. -/
theorem distinctCombinations_eq_filter : distinctCombinations lists used =
    (combinations lists).filter fun t => decide (t.Nodup ∧ ∀ a ∈ t, a ∉ used) := by
  induction lists generalizing used with
  | nil => simp [distinctCombinations, combinations]
  | cons values rest ih =>
    rw [distinctCombinations, combinations, List.filter_flatMap]
    simp only [List.filter_map, Function.comp_def, nodup_cons_avoiding_iff, ih]
    induction values with
    | nil => rfl
    | cons a values ihv =>
      rw [List.flatMap_cons, ← ihv, List.filter_cons]
      by_cases ha : a ∈ used <;> simp [ha]

theorem mem_distinctCombinations : t ∈ distinctCombinations lists used ↔
    List.Forall₂ (fun values a => a ∈ values) lists t ∧ t.Nodup ∧ ∀ a ∈ t, a ∉ used := by
  rw [distinctCombinations_eq_filter, List.mem_filter, mem_combinations, decide_eq_true_iff]

namespace Constraint

theorem fullDomains_eq_ok (hknown : ∀ x ∈ scope, net.Knows x) :
    ∃ lists, fullDomains net scope = .ok lists ∧
      ∀ t, List.Forall₂ (fun values a => a ∈ values) lists t ↔
        List.Forall₂ net.InDomain scope t := by
  have hvalues : ∀ x ∈ scope, ∃ values, (return (← net.variableAt x).fullDomain) = Except.ok values ∧
      ∀ a, a ∈ values ↔ net.InDomain x a := by
    intro x hx
    obtain ⟨v, hv⟩ := hknown x hx
    refine ⟨v.fullDomain, by rw [Network.variableAt, Store.fetch_of_get? hv]; rfl, fun a => ?_⟩
    constructor
    · exact fun ha => ⟨v, hv, ha⟩
    · rintro ⟨w, hw, ha⟩
      cases hv.symm.trans hw
      exact ha
  obtain ⟨lists, hlists⟩ := exists_forall₂ hvalues
  exact ⟨lists, mapM_eq_ok.mpr (hlists.imp fun _ _ h => h.1),
    fun t => forall₂_mem_iff (hlists.imp fun _ _ h => h.2)⟩

theorem ofPredicate_eq_ok (name : String) (hknown : ∀ x ∈ scope, net.Knows x)
    (test : List Int → Bool) : ∃ c, ofPredicate net name scope test = .ok c ∧
      c.Tabulates net scope fun t => test t = true := by
  obtain ⟨lists, hlists, hiff⟩ := fullDomains_eq_ok hknown
  refine ⟨.ofTuples name scope ((combinations lists).filter test), ?_, rfl, fun t => ?_⟩
  · rw [ofPredicate, hlists]
    rfl
  · rw [ofTuples, TupleSet.mem_ofList, List.mem_filter, mem_combinations, hiff]

theorem allDifferent_eq_ok (name : String) (hknown : ∀ x ∈ scope, net.Knows x) :
    ∃ c, allDifferent net name scope = .ok c ∧ c.Tabulates net scope List.Nodup := by
  obtain ⟨lists, hlists, hiff⟩ := fullDomains_eq_ok hknown
  refine ⟨.ofTuples name scope (distinctCombinations lists []), ?_, rfl, fun t => ?_⟩
  · rw [allDifferent, hlists]
    rfl
  · rw [ofTuples, TupleSet.mem_ofList, mem_distinctCombinations, hiff]
    simp

private theorem ofPair_eq_ok (sign : String) (hx : net.Knows x) (hy : net.Knows y)
    (related : Int → Int → Bool) :
    ∃ c, (do
        let name := (← net.variableAt x).name ++ sign ++ (← net.variableAt y).name
        ofPredicate net name [x, y] (pairTest related)) = .ok c ∧
      c.Tabulates net [x, y] fun t => pairTest related t = true := by
  obtain ⟨v, hv⟩ := id hx
  obtain ⟨w, hw⟩ := id hy
  rw [Network.variableAt, Network.variableAt, Store.fetch_of_get? hv, Store.fetch_of_get? hw]
  apply ofPredicate_eq_ok
  simp [hx, hy]

theorem notEquals_eq_ok (hx : net.Knows x) (hy : net.Knows y) :
    ∃ c, notEquals net x y = .ok c ∧
      c.Tabulates net [x, y] fun t => pairTest (· != ·) t = true :=
  ofPair_eq_ok " != " hx hy (· != ·)

theorem lessThan_eq_ok (hx : net.Knows x) (hy : net.Knows y) :
    ∃ c, lessThan net x y = .ok c ∧
      c.Tabulates net [x, y] fun t => pairTest (· < ·) t = true :=
  ofPair_eq_ok " < " hx hy (· < ·)

namespace Tabulates

theorem fits (h : c.Tabulates net scope condition) (hne : scope ≠ []) (hnodup : scope.Nodup)
    (hknown : ∀ x ∈ scope, net.Knows x) : c.Fits net := by
  obtain ⟨rfl, hmem⟩ := h
  exact ⟨hne, hnodup, hknown, fun t ht => ((hmem t).mp ht).1⟩

theorem satisfiedBy_iff (h : c.Tabulates net scope condition)
    (hdomain : ∀ x ∈ scope, ∀ a, value x = some a → net.InDomain x a) :
    c.SatisfiedBy value ↔ ∃ t, List.Forall₂ (fun x a => value x = some a) scope t ∧ condition t := by
  obtain ⟨rfl, hmem⟩ := h
  constructor
  · rintro ⟨t, ht, hall⟩
    exact ⟨t, hall, ((hmem t).mp ht).2⟩
  · rintro ⟨t, hall, hcondition⟩
    exact ⟨t, (hmem t).mpr ⟨forall₂_imp_mem hall fun x a hx => hdomain x hx a, hcondition⟩, hall⟩

theorem satisfiedBy_pair_iff {related : Int → Int → Bool} {a b : Int}
    (h : c.Tabulates net [x, y] fun t => pairTest related t = true) (hx : value x = some a)
    (hy : value y = some b) (ha : net.InDomain x a) (hb : net.InDomain y b) :
    c.SatisfiedBy value ↔ related a b = true := by
  rw [h.satisfiedBy_iff]
  · simp [List.forall₂_cons_left_iff, hx, hy, pairTest]
  · simp [hx, hy, ha, hb]

end Tabulates

end Constraint

end FiniteDomain
