import FiniteDomain.Variable
import Mathlib.Data.List.Nodup
import Mathlib.Tactic.Common
/-!
# Domains

The current domain of a variable as the full domain without some values. Pruning takes one more
value away and restoring gives one back, so that the order of removals plays no part.
-/
namespace FiniteDomain

inductive DomainOp where
  | prune (a : Int)
  | restore (a : Int)
  | assign (a : Int)
  | unassign
deriving DecidableEq

def DomainOp.apply : DomainOp → Variable → Except Breach Variable
  | prune a, v => v.prune a
  | restore a, v => v.restore a
  | assign a, v => v.assign a
  | unassign, v => v.unassign

namespace Variable

/-- The values are distinct, and the size counts the current ones. -/
structure WellFormed (x : Variable) : Prop where
  nodup : x.fullDomain.Nodup
  size_eq : x.size = x.currentDomain.length

def without (x : Variable) (gone : Int → Bool) : Variable :=
  let kept := x.candidates.map fun c => ⟨c.value, c.present && !gone c.value⟩
  { x with candidates := kept, size := kept.countP Candidate.present }

variable {x y : Variable} {a b : Int} {gone : Int → Bool}

theorem contains_iff : x.contains a = true ↔ (⟨a, true⟩ : Candidate) ∈ x.candidates := by
  simp [contains]

theorem lacks_iff : x.lacks a = true ↔ (⟨a, false⟩ : Candidate) ∈ x.candidates := by
  simp [lacks]

theorem map_value_marked (x : Variable) (a : Int) (p : Bool) :
    (x.marked a p).map Candidate.value = x.fullDomain := by
  rw [marked, List.map_map, fullDomain]
  apply List.map_congr_left
  intro c _
  by_cases hc : c.value = a <;> simp [hc]

theorem length_currentDomain (x : Variable) :
    x.currentDomain.length = x.candidates.countP Candidate.present := by
  rw [currentDomain]
  induction x.candidates with
  | nil => rfl
  | cons c cs ih => cases hc : c.present <;> simp [hc, ih]

theorem currentDomain_sublist (x : Variable) : x.currentDomain.Sublist x.fullDomain := by
  rw [currentDomain, fullDomain]
  induction x.candidates with
  | nil => exact List.Sublist.slnil
  | cons c cs ih =>
    cases hc : c.present
    · simpa [hc] using ih.cons c.value
    · simpa [hc] using ih

theorem WellFormed.nodup_currentDomain (h : x.WellFormed) : x.currentDomain.Nodup :=
  h.nodup.sublist x.currentDomain_sublist

theorem WellFormed.present_eq (h : x.WellFormed) {p q : Bool}
    (hp : (⟨a, p⟩ : Candidate) ∈ x.candidates) (hq : (⟨a, q⟩ : Candidate) ∈ x.candidates) :
    p = q := by
  have he := List.inj_on_of_nodup_map h.nodup hp hq rfl
  exact (Candidate.mk.inj he).2

@[simp] theorem name_without (x : Variable) (gone : Int → Bool) : (x.without gone).name = x.name :=
  rfl

@[simp] theorem assignments_without (x : Variable) (gone : Int → Bool) :
    (x.without gone).assignments = x.assignments :=
  rfl

@[simp] theorem fullDomain_without (x : Variable) (gone : Int → Bool) :
    (x.without gone).fullDomain = x.fullDomain := by
  simp [fullDomain, without, Function.comp_def]

theorem currentDomain_without (x : Variable) (gone : Int → Bool) :
    (x.without gone).currentDomain = x.currentDomain.filter fun a => !gone a := by
  simp only [currentDomain, without, List.filterMap_map, List.filter_filterMap]
  apply List.filterMap_congr
  rintro ⟨v, p⟩ _
  cases p <;> cases hg : gone v <;> simp [hg, Option.filter]

theorem contains_without : (x.without gone).contains a = true ↔ x.contains a = true ∧ gone a = false := by
  rw [← mem_currentDomain, currentDomain_without, List.mem_filter, mem_currentDomain]
  simp

theorem wellFormed_without (h : x.WellFormed) (gone : Int → Bool) : (x.without gone).WellFormed where
  nodup := by rw [fullDomain_without]; exact h.nodup
  size_eq := by rw [length_currentDomain, without]

theorem without_without (x : Variable) (gone gone' : Int → Bool) :
    (x.without gone).without gone' = x.without fun a => gone a || gone' a := by
  have hmap : (x.candidates.map fun c => (⟨c.value, c.present && !gone c.value⟩ : Candidate)).map
        (fun c => (⟨c.value, c.present && !gone' c.value⟩ : Candidate)) =
      x.candidates.map fun c => ⟨c.value, c.present && !(gone c.value || gone' c.value)⟩ := by
    rw [List.map_map]
    apply List.map_congr_left
    intro c _
    simp [Bool.and_assoc, Bool.not_or]
  simp only [without, hmap]

theorem without_congr {gone' : Int → Bool} (h : ∀ a, x.contains a = true → gone a = gone' a) :
    x.without gone = x.without gone' := by
  have hmap : (x.candidates.map fun c => (⟨c.value, c.present && !gone c.value⟩ : Candidate)) =
      x.candidates.map fun c => ⟨c.value, c.present && !gone' c.value⟩ := by
    apply List.map_congr_left
    rintro ⟨v, p⟩ hc
    cases p with
    | false => rfl
    | true => simp [h v (contains_iff.mpr hc)]
  simp only [without, hmap]

theorem WellFormed.without_none (h : x.WellFormed) : (x.without fun _ => false) = x := by
  have hmap : (x.candidates.map fun c => (⟨c.value, c.present && !false⟩ : Candidate)) =
      x.candidates := by simp
  have hsize : x.candidates.countP Candidate.present = x.size := by
    rw [h.size_eq, length_currentDomain]
  cases x
  simp only [without, hmap, hsize]

theorem size_pos (h : x.WellFormed) : 0 < x.size ↔ ∃ a, x.contains a = true := by
  rw [h.size_eq, List.length_pos_iff_exists_mem]
  simp only [mem_currentDomain]

theorem size_without (h : x.WellFormed) (ha : x.contains a = true) :
    (x.without (· == a)).size + 1 = x.size := by
  have hmem : a ∈ x.currentDomain := mem_currentDomain.mpr ha
  rw [(wellFormed_without h _).size_eq, h.size_eq, currentDomain_without,
    ← List.length_erase_add_one hmem, h.nodup_currentDomain.erase_eq_filter]
  rfl

theorem prune_eq_ok (h : x.WellFormed) (ha : x.contains a = true) :
    x.prune a = .ok (x.without (· == a)) := by
  have hmap : x.marked a false = (x.without (· == a)).candidates := by
    apply List.map_congr_left
    intro c _
    by_cases hc : c.value = a
    · simp [hc]
    · simp [hc, beq_eq_false_iff_ne.mpr hc]
  have hsize : x.size - 1 = (x.without (· == a)).size := by
    have := size_without h ha
    omega
  rw [prune, if_pos ha, hmap, hsize]
  rfl

theorem WellFormed.of_prune (h : x.WellFormed) (hprune : x.prune a = .ok y) :
    x.contains a = true ∧ y = x.without (· == a) := by
  have ha : x.contains a = true := by
    by_contra hnot
    rw [prune, if_neg hnot] at hprune
    cases hprune
  rw [prune_eq_ok h ha] at hprune
  exact ⟨ha, (Except.ok.inj hprune).symm⟩

theorem restore_without (h : x.WellFormed) (ha : x.contains a = true) (hg : gone a = true) :
    (x.without gone).restore a = .ok (x.without fun b => gone b && b != a) := by
  let wide := x.without fun b => gone b && b != a
  have hmem := contains_iff.mp ha
  have hlacks : (x.without gone).lacks a = true := by
    rw [lacks_iff]
    exact List.mem_map.mpr ⟨_, hmem, by simp [hg]⟩
  have hmap : (x.without gone).marked a true = wide.candidates := by
    simp only [marked, without, List.map_map, wide]
    apply List.map_congr_left
    intro c hc
    by_cases hca : c.value = a
    · have hp : c.present = true := h.present_eq (a := a) (by rw [← hca]; exact hc) hmem
      simp [hca, hp]
    · have hne : (c.value != a) = true := bne_iff_ne.mpr hca
      simp only [Function.comp_apply, if_neg hca, hne, Bool.and_true]
  have hback : wide.without (· == a) = x.without gone := by
    rw [without_without]
    congr 1
    funext b
    by_cases hb : b = a
    · simp [hb, hg]
    · simp [bne_iff_ne.mpr hb, beq_eq_false_iff_ne.mpr hb]
  have hsize : (x.without gone).size + 1 = wide.size := by
    rw [← hback]
    exact size_without (wellFormed_without h _) (contains_without.mpr ⟨ha, by simp⟩)
  rw [restore, if_pos hlacks, hmap, hsize]
  rfl

private theorem firstRepeat_eq_none_iff {seen vs : List Int} :
    firstRepeat seen vs = none ↔ vs.Nodup ∧ ∀ v ∈ vs, v ∉ seen := by
  induction vs generalizing seen with
  | nil => simp [firstRepeat]
  | cons v vs ih =>
    by_cases hv : v ∈ seen
    · simp [firstRepeat, hv]
    · rw [firstRepeat, if_neg (by simpa using hv), ih, List.nodup_cons, List.forall_mem_cons]
      constructor
      · intro h
        obtain ⟨hn, hs⟩ := h
        exact ⟨⟨fun hm => hs v hm (by simp), hn⟩, hv,
          fun w hw hseen => hs w hw (List.mem_cons_of_mem _ hseen)⟩
      · intro h
        obtain ⟨⟨hnot, hn⟩, _, hs⟩ := h
        refine ⟨hn, fun w hw hmem => ?_⟩
        rcases List.mem_cons.mp hmem with rfl | hseen
        · exact hnot hw
        · exact hs w hw hseen

theorem create_eq_ok_iff {name : String} {domain : List Int} :
    create name domain = .ok x ↔ domain ≠ [] ∧ domain.Nodup ∧ x = ofDomain name domain := by
  rw [create]
  by_cases hd : domain.isEmpty = true
  · simp [List.isEmpty_iff.mp hd]
  · have hne : domain ≠ [] := fun h => hd (List.isEmpty_iff.mpr h)
    cases hr : firstRepeat [] domain with
    | some v =>
      have hdup : ¬domain.Nodup := by
        intro hn
        rw [firstRepeat_eq_none_iff.mpr ⟨hn, by simp⟩] at hr
        cases hr
      simp [hd, hdup]
    | none =>
      have hn := (firstRepeat_eq_none_iff.mp hr).1
      simp [hd, hne, hn, eq_comm]

theorem wellFormed_of_create {name : String} {domain : List Int} (h : create name domain = .ok x) :
    x.WellFormed := by
  obtain ⟨-, hn, rfl⟩ := create_eq_ok_iff.mp h
  exact ⟨by rwa [fullDomain_ofDomain], by rw [currentDomain_ofDomain]; rfl⟩

theorem wellFormed_of_prune (h : x.WellFormed) (hp : x.prune a = .ok y) :
    y.fullDomain = x.fullDomain ∧ y.WellFormed := by
  obtain ⟨-, rfl⟩ := h.of_prune hp
  exact ⟨fullDomain_without _ _, wellFormed_without h _⟩

theorem WellFormed.marked_without (h : x.WellFormed) (ha : x.lacks a = true) (n : Nat) :
    ({ x with candidates := x.marked a true, size := n } : Variable).without (· == a) = x := by
  have hkept : (x.marked a true).map
      (fun c => (⟨c.value, c.present && !(c.value == a)⟩ : Candidate)) = x.candidates := by
    rw [marked, List.map_map]
    conv_rhs => rw [← List.map_id x.candidates]
    apply List.map_congr_left
    rintro ⟨v, p⟩ hc
    by_cases hv : v = a
    · subst hv
      simp [h.present_eq hc (lacks_iff.mp ha)]
    · simp [hv, beq_eq_false_iff_ne.mpr hv]
  have hsize : x.candidates.countP Candidate.present = x.size := by
    rw [h.size_eq, length_currentDomain]
  simp only [without, hkept, hsize]

theorem WellFormed.of_restore (h : x.WellFormed) (hr : x.restore a = .ok y) :
    y.WellFormed ∧ y.contains a = true ∧ y.without (· == a) = x := by
  have ha : x.lacks a = true := by
    by_contra hnot
    rw [restore, if_neg hnot] at hr
    cases hr
  rw [restore, if_pos ha] at hr
  let full : Variable := { x with candidates := x.marked a true, size := x.size + 1 }
  obtain rfl : full = y := Except.ok.inj hr
  have hback : full.without (· == a) = x := h.marked_without ha _
  have hcontains : full.contains a = true :=
    contains_iff.mpr (List.mem_map.mpr ⟨_, lacks_iff.mp ha, if_pos rfl⟩)
  have hfull : full.fullDomain = x.fullDomain := map_value_marked x a true
  have hnodup : full.fullDomain.Nodup := hfull ▸ h.nodup
  refine ⟨⟨hnodup, ?_⟩, hcontains, hback⟩
  have herase := (hnodup.sublist full.currentDomain_sublist).erase_eq_filter a
  have hcurrent : full.currentDomain.filter (fun b => !b == a) = x.currentDomain := by
    rw [← currentDomain_without, hback]
  rw [← List.length_erase_add_one (mem_currentDomain.mpr hcontains), herase]
  change x.size + 1 = (full.currentDomain.filter fun b => !b == a).length + 1
  rw [hcurrent, h.size_eq]

theorem wellFormed_of_restore (h : x.WellFormed) (hr : x.restore a = .ok y) :
    y.fullDomain = x.fullDomain ∧ y.WellFormed := by
  obtain ⟨hwf, -, rfl⟩ := h.of_restore hr
  exact ⟨(fullDomain_without _ _).symm, hwf⟩

theorem wellFormed_of_assign (h : x.WellFormed) (ha : x.assign a = .ok y) :
    y.fullDomain = x.fullDomain ∧ y.WellFormed := by
  rw [assign] at ha
  split at ha
  · cases ha
    exact ⟨rfl, h.nodup, h.size_eq⟩
  · cases ha

theorem wellFormed_of_unassign (h : x.WellFormed) (hu : x.unassign = .ok y) :
    y.fullDomain = x.fullDomain ∧ y.WellFormed := by
  rw [unassign] at hu
  split at hu
  · cases hu
  · cases hu
    exact ⟨rfl, h.nodup, h.size_eq⟩

theorem wellFormed_of_apply {op : DomainOp} (h : x.WellFormed) (happly : op.apply x = .ok y) :
    y.fullDomain = x.fullDomain ∧ y.WellFormed := by
  cases op with
  | prune a => exact wellFormed_of_prune h happly
  | restore a => exact wellFormed_of_restore h happly
  | assign a => exact wellFormed_of_assign h happly
  | unassign => exact wellFormed_of_unassign h happly

theorem name_of_apply {op : DomainOp} (h : op.apply x = .ok y) : y.name = x.name := by
  cases op <;> simp only [DomainOp.apply, prune, restore, assign, unassign] at h <;>
    split at h <;> cases h <;> rfl

end Variable

end FiniteDomain
