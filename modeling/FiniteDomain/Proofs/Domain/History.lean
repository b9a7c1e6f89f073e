import FiniteDomain.Proofs.Domain.InPlace
/-!
# Histories of a domain

Whatever is pruned, restored, assigned and unassigned, with calls that breach among it: the current
domain is a part of the full domain in its order, counted by the size, and what a next call does
depends on membership alone. Prunings are undone in any order.
-/
namespace FiniteDomain

/-- What is left after some operations; one that breaches leaves the variable as it was. -/
def Variable.after (x : Variable) : List DomainOp → Variable
  | [] => x
  | op :: ops =>
    match op.apply x with
    | .ok y => y.after ops
    | .error _ => x.after ops

def DomainStore.after (s : DomainStore) : List DomainOp → DomainStore
  | [] => s
  | op :: ops =>
    match op.serve.run s with
    | .ok _ t => t.after ops
    | .error _ t => t.after ops

namespace Variable
variable {x y z : Variable} {a b : Int} {name : String} {domain : List Int}

theorem after_kept (h : x.WellFormed) (ops : List DomainOp) :
    (x.after ops).name = x.name ∧ (x.after ops).fullDomain = x.fullDomain ∧
      (x.after ops).WellFormed := by
  induction ops generalizing x with
  | nil => exact ⟨rfl, rfl, h⟩
  | cons op ops ih =>
    rw [after]
    cases happly : op.apply x with
    | error b => exact ih h
    | ok y =>
      obtain ⟨hfull, hwf⟩ := wellFormed_of_apply h happly
      obtain ⟨hname, hfull', hwf'⟩ := ih hwf
      exact ⟨hname.trans (name_of_apply happly), hfull'.trans hfull, hwf'⟩

theorem WellFormed.currentDomain_eq (h : x.WellFormed) :
    x.currentDomain = x.fullDomain.filter x.contains := by
  rw [fullDomain, List.filter_map, ← List.filterMap_eq_map, List.filterMap_filter, currentDomain]
  apply List.filterMap_congr
  intro c hc
  have hmark : x.contains c.value = c.present := by
    rw [Bool.eq_iff_iff, contains_iff]
    constructor
    · exact fun hmem => h.present_eq hc hmem
    · intro hpresent
      rw [← hpresent]
      exact hc
  rw [Function.comp_apply, hmark]
  rfl

theorem WellFormed.lacks_iff_mem (h : x.WellFormed) :
    x.lacks a = true ↔ a ∈ x.fullDomain ∧ a ∉ x.currentDomain := by
  rw [lacks_iff, mem_currentDomain, contains_iff, fullDomain, List.mem_map]
  constructor
  · intro hc
    exact ⟨⟨_, hc, rfl⟩, fun hc' => Bool.false_ne_true (h.present_eq hc hc')⟩
  · intro hfull
    obtain ⟨⟨⟨b, p⟩, hc, rfl⟩, hnot⟩ := hfull
    cases p with
    | true => exact absurd hc hnot
    | false => exact hc

theorem prune_breaches_iff : (∃ b, x.prune a = .error b) ↔ a ∉ x.currentDomain := by
  rw [mem_currentDomain, prune]
  by_cases ha : x.contains a = true <;> simp [ha]

theorem WellFormed.restore_breaches_iff (h : x.WellFormed) :
    (∃ b, x.restore a = .error b) ↔ a ∈ x.currentDomain ∨ a ∉ x.fullDomain := by
  have hlacks : ¬x.lacks a = true ↔ a ∈ x.currentDomain ∨ a ∉ x.fullDomain := by
    rw [h.lacks_iff_mem]
    tauto
  rw [← hlacks, restore]
  by_cases ha : x.lacks a = true <;> simp [ha]

theorem assign_breaches_iff : (∃ b, x.assign a = .error b) ↔ a ∉ x.currentDomain := by
  rw [mem_currentDomain, assign]
  by_cases ha : x.contains a = true <;> simp [ha]

theorem unassign_breaches_iff : (∃ b, x.unassign = .error b) ↔ x.assignments = [] := by
  rw [unassign]
  cases x.assignments <;> simp

theorem eq_of_assign (h : x.assign a = .ok y) :
    y = { x with assignments := a :: x.assignments } := by
  rw [assign] at h
  split at h
  · exact (Except.ok.inj h).symm
  · cases h

theorem exists_of_unassign (h : x.unassign = .ok y) :
    ∃ a, x = { y with assignments := a :: y.assignments } := by
  rw [unassign] at h
  split at h
  · cases h
  · next a rest hx =>
    obtain rfl := Except.ok.inj h
    exact ⟨a, by rw [← hx]⟩

theorem WellFormed.changed_by_restore (h : x.WellFormed) (hrestore : x.restore a = .ok y) :
    y.assignments = x.assignments ∧ y.size = x.size + 1 ∧
      y.currentDomain = x.fullDomain.filter fun b => x.contains b || b == a := by
  obtain ⟨hwf, ha, rfl⟩ := h.of_restore hrestore
  refine ⟨rfl, (size_without hwf ha).symm, ?_⟩
  rw [hwf.currentDomain_eq, fullDomain_without]
  apply List.filter_congr
  intro b _
  rw [Bool.eq_iff_iff, Bool.or_eq_true, contains_without, beq_iff_eq]
  by_cases hba : b = a
  · simp [hba, ha]
  · simp [hba]

theorem WellFormed.of_pruneAll (h : x.WellFormed) {removed : List Int}
    (hall : removed.foldlM prune x = .ok y) :
    removed.Nodup ∧ (∀ a ∈ removed, x.contains a = true) ∧ y = x.without removed.contains := by
  induction removed generalizing x with
  | nil =>
    obtain rfl : x = y := Except.ok.inj hall
    exact ⟨List.nodup_nil, by simp, h.without_none.symm⟩
  | cons a removed ih =>
    rw [List.foldlM_cons] at hall
    obtain ⟨next, hnext, hall⟩ := bind_eq_ok.mp hall
    obtain ⟨ha, rfl⟩ := h.of_prune hnext
    obtain ⟨hnodup, hcurrent, rfl⟩ := ih (wellFormed_without h _) hall
    have hstill (b : Int) (hb : b ∈ removed) : x.contains b = true ∧ b ≠ a := by
      simpa using contains_without.mp (hcurrent b hb)
    refine ⟨List.nodup_cons.mpr ⟨fun hmem => (hstill a hmem).2 rfl, hnodup⟩, ?_, ?_⟩
    · intro b hb
      rcases List.mem_cons.mp hb with rfl | hb
      · exact ha
      · exact (hstill b hb).1
    · rw [without_without]
      rfl

/-- Restored in any order, distinct values that were taken are all back. -/
theorem WellFormed.restoreAll_without (h : x.WellFormed) {removed order : List Int}
    (hnodup : removed.Nodup) (hcurrent : ∀ a ∈ removed, x.contains a = true)
    (hperm : order.Perm removed) :
    order.foldlM restore (x.without removed.contains) = .ok x := by
  induction order generalizing removed with
  | nil =>
    rw [hperm.nil_eq.symm]
    exact congrArg Except.ok h.without_none
  | cons a order ih =>
    have ha : a ∈ removed := hperm.subset List.mem_cons_self
    have hrest : order.Perm (removed.erase a) := by simpa using hperm.erase a
    have hgone : (fun b => removed.contains b && b != a) = (removed.erase a).contains := by
      funext b
      rw [Bool.eq_iff_iff]
      simp [hnodup.mem_erase_iff, and_comm]
    have hrestored := restore_without h (hcurrent a ha) (List.contains_iff_mem.mpr ha)
    rw [hgone] at hrestored
    rw [List.foldlM_cons]
    refine bind_eq_ok.mpr ⟨_, hrestored, ?_⟩
    exact ih (hnodup.erase a) (fun b hb => hcurrent b (List.mem_of_mem_erase hb)) hrest

end Variable

/-- A domain and the variable that it represents go through a history side by side. -/
theorem DomainStore.Represents.after {s : DomainStore} {x : Variable} (h : s.Represents x)
    (hwf : x.WellFormed) (ops : List DomainOp) : (s.after ops).Represents (x.after ops) := by
  induction ops generalizing s x with
  | nil => exact h
  | cons op ops ih =>
    have hends := h.ends_serve hwf.nodup op
    unfold Ends at hends
    rw [DomainStore.after, Variable.after]
    split at hends
    · next t hrun =>
      obtain ⟨y, hy, ht⟩ := hends
      rw [hrun, hy]
      exact ih ht (Variable.wellFormed_of_apply hwf hy).2
    · next b t hrun =>
      obtain ⟨hb, rfl⟩ := hends
      rw [hrun, hb]
      exact ih h hwf

/-- After any history the current domain is the part of the full domain that the variable contains,
and the size counts it. Which calls breach depends on it and on the assignments alone; the others
change one of the two. Prunings are undone by restoring their values in any order. A domain laid out
in separate parts shows the same and does the same, and a call that breaches has not touched it. -/
theorem Variable.history_exact {name : String} {domain : List Int} {x : Variable}
    (hcreate : create name domain = .ok x) (ops : List DomainOp) :
    let y := x.after ops
    y.name = name ∧ y.fullDomain = domain ∧ y.currentDomain = domain.filter y.contains ∧
    (∀ a, a ∈ y.currentDomain ↔ y.contains a = true) ∧ y.currentDomain.Nodup ∧
    y.size = y.currentDomain.length ∧
    -- which calls breach
    (∀ a, (∃ b, y.prune a = .error b) ↔ a ∉ y.currentDomain) ∧
    (∀ a, (∃ b, y.restore a = .error b) ↔ a ∈ y.currentDomain ∨ a ∉ domain) ∧
    (∀ a, (∃ b, y.assign a = .error b) ↔ a ∉ y.currentDomain) ∧
    ((∃ b, y.unassign = .error b) ↔ y.assignments = []) ∧
    -- what the others change
    (∀ a z, y.prune a = .ok z → z.assignments = y.assignments ∧ z.size + 1 = y.size ∧
      z.currentDomain = y.currentDomain.filter (· != a)) ∧
    (∀ a z, y.restore a = .ok z → z.assignments = y.assignments ∧ z.size = y.size + 1 ∧
      z.currentDomain = domain.filter fun b => y.contains b || b == a) ∧
    (∀ a z, y.assign a = .ok z → z = { y with assignments := a :: y.assignments }) ∧
    (∀ z, y.unassign = .ok z → ∃ a, y = { z with assignments := a :: z.assignments }) ∧
    -- undoing
    (∀ (removed order : List Int) (z : Variable), removed.foldlM prune y = .ok z →
      order.Perm removed → order.foldlM restore z = .ok y) ∧
    -- in separate parts
    ∃ store, DomainStore.create name domain = .ok store ∧
      let s := store.after ops
      s.Represents y ∧ s.currentDomain = y.currentDomain ∧ s.assignedValue = y.assignedValue ∧
      (∀ a, s.contains a = y.contains a) ∧
      ∀ op : DomainOp, Ends op.serve s (fun _ t => ∃ z, op.apply y = .ok z ∧ t.Represents z)
        (fun b t => op.apply y = .error b ∧ t = s) := by
  intro y
  obtain ⟨hname, hfull, hwf⟩ := after_kept (wellFormed_of_create hcreate) ops
  obtain ⟨-, -, rfl⟩ := create_eq_ok_iff.mp hcreate
  rw [fullDomain_ofDomain] at hfull
  have hcurrent : y.currentDomain = domain.filter y.contains := by
    rw [hwf.currentDomain_eq, hfull]
  refine ⟨hname, hfull, hcurrent, fun a => mem_currentDomain, hwf.nodup_currentDomain, hwf.size_eq,
    fun a => prune_breaches_iff, fun a => ?_, fun a => assign_breaches_iff, unassign_breaches_iff,
    fun a z hz => ?_, fun a z hz => ?_, fun a z hz => eq_of_assign hz,
    fun z hz => exists_of_unassign hz, fun removed order z hz hperm => ?_, ?_⟩
  · rw [hwf.restore_breaches_iff, hfull]
  · obtain ⟨ha, rfl⟩ := hwf.of_prune hz
    exact ⟨rfl, size_without hwf ha, currentDomain_without _ _⟩
  · rw [← hfull]
    exact hwf.changed_by_restore hz
  · obtain ⟨hnodup, hremoved, rfl⟩ := hwf.of_pruneAll hz
    exact hwf.restoreAll_without hnodup hremoved hperm
  · have hlaid := DomainStore.create_eq name domain
    rw [hcreate] at hlaid
    obtain ⟨store, hstore, hrepresents⟩ := hlaid
    have h := hrepresents.after (wellFormed_of_create hcreate) ops
    exact ⟨store, hstore, h, h.currentDomain_eq, h.assignedValue_eq, h.contains_eq,
      h.ends_serve hwf.nodup⟩

/-- A domain out of order with a negative value, after a history in which two calls breach. Its last
two values are pruned and come back the other way round. -/
theorem Variable.history_exact_signed :
    let x : Variable := .ofDomain "x" [3, -1, 2]
    let y := x.after [.assign 3, .prune 3, .restore 7, .assign 3]
    create "x" [3, -1, 2] = .ok x ∧ y.assignments = [3] ∧ y.currentDomain = [-1, 2] ∧
      y.currentDomain = [3, -1, 2].filter y.contains ∧ y.size = y.currentDomain.length ∧
      (∃ b, y.restore 7 = .error b) ∧
      ∃ z, [2, -1].foldlM prune y = .ok z ∧ z.currentDomain = [] ∧
        [-1, 2].foldlM restore z = .ok y := by
  intro x y
  have hcreate : create "x" [3, -1, 2] = .ok x := rfl
  obtain ⟨-, -, hcurrent, -, -, hsize, -, hrestore, -, -, -, -, -, -, hundo, -⟩ :=
    history_exact hcreate [.assign 3, .prune 3, .restore 7, .assign 3]
  have hpruned : [2, -1].foldlM prune y = .ok ⟨"x", [⟨3, false⟩, ⟨-1, false⟩, ⟨2, false⟩], 0, [3]⟩ :=
    rfl
  exact ⟨hcreate, rfl, rfl, hcurrent, hsize, (hrestore 7).mpr (.inr (by decide)), _, hpruned, rfl,
    hundo _ _ _ hpruned (.swap _ _ _)⟩

end FiniteDomain
