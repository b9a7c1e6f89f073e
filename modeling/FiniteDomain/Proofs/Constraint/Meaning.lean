import FiniteDomain.Proofs.Constraint.Table
/-!
# What constraints mean

Lists of constraints are built up part by part. What a list means for values from the full domains
is put together the same way.
-/
namespace FiniteDomain

namespace Network

/-- Every variable has a value, from its full domain. -/
def Valued (net : Network) (value : VariableId → Option Int) : Prop :=
  ∀ x, net.Knows x → ∃ a, value x = some a ∧ net.InDomain x a

/-- The constraints fit, and values from the full domains satisfy all of them exactly if they are as
is meant. -/
structure Expresses (net : Network) (cs : List Constraint)
    (meaning : (VariableId → Option Int) → Prop) : Prop where
  fits : ∀ c ∈ cs, c.Fits net
  satisfied_iff : ∀ value, net.Valued value → ((∀ c ∈ cs, c.SatisfiedBy value) ↔ meaning value)

variable {α : Type} {net : Network} {cs ds : List Constraint} {x y : VariableId}
  {value : VariableId → Option Int} {meaning meaning' : (VariableId → Option Int) → Prop}
  {meant : α → (VariableId → Option Int) → Prop} {as : List α}

theorem Valued.inDomain (h : net.Valued value) (hx : net.Knows x) {a : Int} (ha : value x = some a) :
    net.InDomain x a := by
  obtain ⟨b, hb, hdomain⟩ := h x hx
  cases ha.symm.trans hb
  exact hdomain

theorem valued_of_offers {s : Solution} (hsize : s.size = net.numVariables)
    (hoffers : net.Offers s) : net.Valued s.get? := by
  intro x hx
  obtain ⟨a, ha⟩ := get?_of_knows hsize hx
  obtain ⟨v, hv, hcontains⟩ := hoffers ha
  exact ⟨a, ha, v, hv, v.currentDomain_sublist.subset (Variable.mem_currentDomain.mpr hcontains)⟩

namespace Expresses

theorem congr (h : net.Expresses cs meaning)
    (hiff : ∀ value, net.Valued value → (meaning value ↔ meaning' value)) :
    net.Expresses cs meaning' :=
  ⟨h.fits, fun value hvalue => (h.satisfied_iff value hvalue).trans (hiff value hvalue)⟩

theorem nil (net : Network) : net.Expresses [] fun _ => True :=
  ⟨by simp, fun value _ => by simp⟩

theorem append (h : net.Expresses cs meaning) (h' : net.Expresses ds meaning') :
    net.Expresses (cs ++ ds) fun value => meaning value ∧ meaning' value where
  fits := List.forall_mem_append.mpr ⟨h.fits, h'.fits⟩
  satisfied_iff value hvalue := by
    rw [List.forall_mem_append, h.satisfied_iff value hvalue, h'.satisfied_iff value hvalue]

theorem flatten {css : List (List Constraint)}
    (h : List.Forall₂ (fun a cs => net.Expresses cs (meant a)) as css) :
    net.Expresses css.flatten fun value => ∀ a ∈ as, meant a value := by
  induction h with
  | nil => exact (nil net).congr fun value _ => by simp
  | cons ha _ ih => exact (ha.append ih).congr fun value _ => by rw [List.forall_mem_cons]

theorem of_mapM (build : α → Except Breach (List Constraint))
    (h : ∀ a ∈ as, ∃ cs, build a = .ok cs ∧ net.Expresses cs (meant a)) :
    ∃ css, as.mapM build = .ok css ∧
      net.Expresses css.flatten fun value => ∀ a ∈ as, meant a value := by
  obtain ⟨css, hall⟩ := exists_forall₂ h
  exact ⟨css, mapM_eq_ok.mpr (hall.imp fun _ _ h => h.1), flatten (hall.imp fun _ _ h => h.2)⟩

theorem of_mapM_single (build : α → Except Breach Constraint)
    (h : ∀ a ∈ as, ∃ c, build a = .ok c ∧ net.Expresses [c] (meant a)) :
    ∃ cs, as.mapM build = .ok cs ∧ net.Expresses cs fun value => ∀ a ∈ as, meant a value := by
  obtain ⟨cs, hall⟩ := exists_forall₂ h
  refine ⟨cs, mapM_eq_ok.mpr (hall.imp fun _ _ h => h.1), ?_⟩
  have hsingle : List.Forall₂ (fun a cs => net.Expresses cs (meant a)) as (cs.map ([·])) :=
    List.forall₂_map_right_iff.mpr (hall.imp fun _ _ h => h.2)
  have hflatten : (cs.map ([·])).flatten = cs := by
    rw [← List.flatMap_def, List.flatMap_singleton']
  exact hflatten ▸ flatten hsingle

end Expresses

theorem Expresses.of_vars_eq {net' : Network} (h : net.Expresses cs meaning)
    (hvars : net'.vars = net.vars) : net'.Expresses cs meaning where
  fits c hc := (h.fits c hc).mono_vars fun hv => ⟨_, hvars.symm ▸ hv, rfl⟩
  satisfied_iff value hvalue := by
    apply h.satisfied_iff
    simpa only [Valued, Knows, InDomain, hvars] using hvalue

theorem Expresses.of_satisfiedBy_iff {c : Constraint} (hfits : c.Fits net)
    (hiff : ∀ value, net.Valued value → (c.SatisfiedBy value ↔ meaning value)) :
    net.Expresses [c] meaning where
  fits := List.forall_mem_singleton.mpr hfits
  satisfied_iff value hvalue := by rw [List.forall_mem_singleton, hiff value hvalue]

private theorem expresses_pair {c : Constraint} {related : Int → Int → Bool} (hx : net.Knows x)
    (hy : net.Knows y) (hne : x ≠ y)
    (h : c.Tabulates net [x, y] fun t => pairTest related t = true) :
    net.Expresses [c] fun value =>
      ∀ a b, value x = some a → value y = some b → related a b = true := by
  refine .of_satisfiedBy_iff (h.fits (by simp) (by simpa using hne) (by simp [hx, hy])) ?_
  intro value hvalue
  obtain ⟨a, ha, hax⟩ := hvalue x hx
  obtain ⟨b, hb, hby⟩ := hvalue y hy
  rw [h.satisfiedBy_pair_iff ha hb hax hby]
  constructor
  · intro hrelated a' b' ha' hb'
    cases ha.symm.trans ha'
    cases hb.symm.trans hb'
    exact hrelated
  · exact fun hall => hall a b ha hb

theorem notEquals_expresses (hx : net.Knows x) (hy : net.Knows y) (hne : x ≠ y) :
    ∃ c, Constraint.notEquals net x y = .ok c ∧
      net.Expresses [c] fun value => value x ≠ value y := by
  obtain ⟨c, hc, htabulates⟩ := Constraint.notEquals_eq_ok hx hy
  refine ⟨c, hc, (expresses_pair hx hy hne htabulates).congr fun value hvalue => ?_⟩
  obtain ⟨a, ha, -⟩ := hvalue x hx
  obtain ⟨b, hb, -⟩ := hvalue y hy
  simp [ha, hb]

theorem lessThan_expresses (hx : net.Knows x) (hy : net.Knows y) (hne : x ≠ y) :
    ∃ c, Constraint.lessThan net x y = .ok c ∧ net.Expresses [c] fun value =>
      ∀ a b, value x = some a → value y = some b → a < b := by
  obtain ⟨c, hc, htabulates⟩ := Constraint.lessThan_eq_ok hx hy
  refine ⟨c, hc, (expresses_pair hx hy hne htabulates).congr fun value _ => ?_⟩
  simp only [decide_eq_true_eq]

theorem allDifferent_expresses (name : String) {scope : List VariableId} (hnonempty : scope ≠ [])
    (hnodup : scope.Nodup) (hknown : ∀ x ∈ scope, net.Knows x) :
    ∃ c, Constraint.allDifferent net name scope = .ok c ∧
      net.Expresses [c] fun value => (scope.map value).Nodup := by
  obtain ⟨c, hc, htabulates⟩ := Constraint.allDifferent_eq_ok name hknown
  refine ⟨c, hc, .of_satisfiedBy_iff (htabulates.fits hnonempty hnodup hknown) ?_⟩
  intro value hvalue
  rw [htabulates.satisfiedBy_iff fun x hx a => hvalue.inDomain (hknown x hx)]
  have hsome : ∀ x ∈ scope, ∃ a, value x = some a := by
    intro x hx
    obtain ⟨a, ha, -⟩ := hvalue x (hknown x hx)
    exact ⟨a, ha⟩
  obtain ⟨t, ht⟩ := exists_forall₂ hsome
  have hinj : Function.Injective (some : Int → Option Int) := fun _ _ h => Option.some.inj h
  constructor
  · rintro ⟨u, hu, hnodup⟩
    rw [forall₂_eq_some_iff.mp hu]
    exact (List.nodup_map_iff hinj).mpr hnodup
  · intro hmap
    rw [forall₂_eq_some_iff.mp ht] at hmap
    exact ⟨t, ht, (List.nodup_map_iff hinj).mp hmap⟩

end Network

end FiniteDomain
