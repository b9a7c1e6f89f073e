import FiniteDomain.Propagation.Queue
import FiniteDomain.Proofs.Run
import FiniteDomain.Proofs.Store
/-!
# The queue as a list

The flags and the list say the same of every constraint, so that no constraint is in the queue
twice and none is taken for queued that is not. All operations keep this.
-/
namespace FiniteDomain

theorem Store.getD_get?_accommodate {κ α : Type} [Key κ] (s : Store κ α) (j k : κ) (a : α) :
    ((s.accommodate k a).get? j).getD a = (s.get? j).getD a := by
  simp only [get?, accommodate, Array.getElem?_append, Array.getElem?_replicate]
  by_cases hj : Key.index j < s.items.size
  · rw [if_pos hj]
  · rw [if_neg hj, Array.getElem?_eq_none (Nat.le_of_not_lt hj)]
    split <;> rfl

theorem Store.size_accommodate {κ α : Type} [Key κ] (s : Store κ α) (k : κ) (a : α) :
    (s.accommodate k a).size = max s.size (Key.index k + 1) := by
  simp only [size, accommodate, Array.size_append, Array.size_replicate]
  omega

theorem Store.lt_size_accommodate {κ α : Type} [Key κ] (s : Store κ α) (k : κ) (a : α) :
    Key.index k < (s.accommodate k a).size := by
  rw [size_accommodate]
  omega

namespace Queue

/-- No constraint is in the queue twice, and the flags are those of its constraints. -/
structure Coherent (q : Queue) : Prop where
  nodup : q.toList.Nodup
  flagged : ∀ c, q.isEnqueued c = true ↔ c ∈ q.toList

variable {q r : Queue} {c d : ConstraintId} {ids : List ConstraintId}

theorem getD_get?_flag (flags : Store ConstraintId Bool) (c d : ConstraintId) :
    ((flag flags c).get? d).getD false = if d = c then true else (flags.get? d).getD false := by
  rw [flag, Store.get?_modify]
  by_cases hd : d = c
  · obtain ⟨old, hold⟩ := Store.get?_of_lt_size (Store.lt_size_accommodate flags c false)
    simp [hd, hold]
  · rw [if_neg hd, if_neg hd, Store.getD_get?_accommodate]

def unflag (flags : Store ConstraintId Bool) (c : ConstraintId) : Store ConstraintId Bool :=
  flags.modify c fun _ => false

theorem getD_get?_unflag (flags : Store ConstraintId Bool) (c d : ConstraintId) :
    ((unflag flags c).get? d).getD false = if d = c then false else (flags.get? d).getD false := by
  rw [unflag, Store.get?_modify]
  by_cases hd : d = c
  · rw [if_pos hd, if_pos hd]
    cases flags.get? d <;> rfl
  · rw [if_neg hd, if_neg hd]

theorem getD_get?_unflagAll (flags : Store ConstraintId Bool) (ids : List ConstraintId)
    (d : ConstraintId) :
    ((ids.foldl unflag flags).get? d).getD false = true ↔
      d ∉ ids ∧ (flags.get? d).getD false = true := by
  induction ids generalizing flags with
  | nil => simp
  | cons c ids ih =>
    rw [List.foldl_cons, ih, getD_get?_unflag]
    by_cases hd : d = c <;> simp [hd]

theorem foldlM_set {flags : Store ConstraintId Bool} (h : ∀ c ∈ ids, Key.index c < flags.size) :
    ids.foldlM (fun flags c => flags.set c false) flags = .ok (ids.foldl unflag flags) := by
  induction ids generalizing flags with
  | nil => rfl
  | cons c ids ih =>
    obtain ⟨hc, hids⟩ := List.forall_mem_cons.mp h
    rw [List.foldlM_cons, Store.set_of_lt_size hc]
    refine ih fun d hd => ?_
    rw [Store.size_modify]
    exact hids d hd

theorem isEmpty_eq_true_iff : q.isEmpty = true ↔ q.toList = [] := by
  simp [isEmpty, toList]

theorem isEnqueued_enqueue (q : Queue) (c d : ConstraintId) :
    (q.enqueue c).isEnqueued d = true ↔ d = c ∨ q.isEnqueued d = true := by
  unfold enqueue
  by_cases hc : q.isEnqueued c = true
  · rw [if_pos hc]
    constructor
    · exact .inr
    · intro h
      rcases h with rfl | hd
      · exact hc
      · exact hd
  · rw [if_neg hc, isEnqueued, getD_get?_flag]
    by_cases hd : d = c <;> simp [hd, isEnqueued]

theorem pop_eq_ok_none_iff : q.pop = .ok none ↔ q.toList = [] := by
  rw [← first?_eq_none_iff, pop]
  cases hfirst : q.first? with
  | none => simp
  | some first =>
    constructor
    · intro h
      obtain ⟨flags, -, hnone⟩ := bind_eq_ok.mp h
      cases hnone
    · intro h
      cases h

theorem of_pop (h : q.pop = .ok (some (c, r))) :
    q.toList = c :: r.toList ∧ Key.index c < q.flags.size ∧ r.flags = unflag q.flags c := by
  rw [pop] at h
  cases hfirst : q.first? with
  | none =>
    rw [hfirst] at h
    cases h
  | some first =>
    obtain ⟨d, rest⟩ := first
    rw [hfirst] at h
    obtain ⟨hlist, hsame⟩ := of_first? hfirst
    obtain ⟨flags, hset, hpop⟩ := bind_eq_ok.mp h
    obtain ⟨hplace, rfl⟩ := Store.set_eq_ok hset
    cases hpop
    exact ⟨hlist, hsame ▸ hplace, hsame ▸ rfl⟩

theorem toList_of_pop (h : q.pop = .ok (some (c, r))) : q.toList = c :: r.toList := (of_pop h).1

theorem length_of_pop (h : q.pop = .ok (some (c, r))) : q.length = r.length + 1 := by
  rw [← length_toList, ← length_toList, toList_of_pop h, List.length_cons]

theorem isEnqueued_of_pop (h : q.pop = .ok (some (c, r))) (d : ConstraintId) :
    r.isEnqueued d = true ↔ d ≠ c ∧ q.isEnqueued d = true := by
  rw [isEnqueued, (of_pop h).2.2, getD_get?_unflag]
  by_cases hd : d = c <;> simp [hd, isEnqueued]

theorem coherent_empty : empty.Coherent := by
  refine ⟨List.nodup_nil, fun c => ?_⟩
  have hnone : (Store.empty : Store ConstraintId Bool).get? c = none :=
    (Store.get?_eq_none_iff _ c).mpr (Nat.zero_le _)
  simp [isEnqueued, empty, hnone, toList]

theorem Coherent.mem_enqueue (h : q.Coherent) : d ∈ (q.enqueue c).toList ↔ d = c ∨ d ∈ q.toList := by
  rw [toList_enqueue]
  by_cases hc : q.isEnqueued c = true
  · rw [if_pos hc]
    constructor
    · exact .inr
    · intro h
      rcases h with rfl | hd
      · exact (h.flagged d).mp hc
      · exact hd
  · rw [if_neg hc, List.mem_append, List.mem_singleton, or_comm]

theorem Coherent.enqueue (h : q.Coherent) (c : ConstraintId) : (q.enqueue c).Coherent where
  nodup := by
    rw [toList_enqueue]
    by_cases hc : q.isEnqueued c = true
    · rw [if_pos hc]
      exact h.nodup
    · rw [if_neg hc]
      refine List.nodup_append.mpr ⟨h.nodup, List.nodup_singleton c, ?_⟩
      intro d hd _ hdc h
      subst h
      exact hc ((h.flagged c).mpr (List.mem_singleton.mp hdc ▸ hd))
  flagged d := by rw [isEnqueued_enqueue, h.flagged, h.mem_enqueue]

theorem Coherent.get?_flags (h : q.Coherent) (hc : c ∈ q.toList) : q.flags.get? c = some true := by
  have hflag : q.isEnqueued c = true := (h.flagged c).mpr hc
  rw [isEnqueued] at hflag
  cases hget : q.flags.get? c with
  | some b =>
    rw [hget, Option.getD_some] at hflag
    rw [hflag]
  | none =>
    rw [hget] at hflag
    cases hflag

theorem Coherent.lt_size (h : q.Coherent) (hc : c ∈ q.toList) : Key.index c < q.flags.size :=
  Store.lt_size_of_get? (h.get?_flags hc)

/-- What is in the queue can be taken out of it: its place in the table is there. -/
theorem Coherent.exists_pop (h : q.Coherent) : ∃ popped, q.pop = .ok popped := by
  cases hfirst : q.first? with
  | none => exact ⟨none, pop_eq_ok_none_iff.mpr ((first?_eq_none_iff q).mp hfirst)⟩
  | some first =>
    obtain ⟨c, rest⟩ := first
    obtain ⟨hlist, hsame⟩ := of_first? hfirst
    have hplace : Key.index c < rest.flags.size := hsame ▸ h.lt_size (hlist ▸ List.mem_cons_self)
    refine ⟨some (c, { rest with flags := unflag rest.flags c }), ?_⟩
    rw [pop, hfirst]
    exact bind_eq_ok.mpr ⟨_, Store.set_of_lt_size hplace false, rfl⟩

theorem Coherent.of_pop (h : q.Coherent) (hpop : q.pop = .ok (some (c, r))) : r.Coherent := by
  have hlist := toList_of_pop hpop
  have hnodup := h.nodup
  rw [hlist, List.nodup_cons] at hnodup
  refine ⟨hnodup.2, fun d => ?_⟩
  rw [isEnqueued_of_pop hpop, h.flagged, hlist, List.mem_cons]
  constructor
  · intro h
    obtain ⟨hne, hd⟩ := h
    exact hd.resolve_left hne
  · intro hd
    exact ⟨fun hdc => hnodup.1 (hdc ▸ hd), .inr hd⟩

def cleared (q : Queue) : Queue := ⟨[], [], q.toList.foldl unflag q.flags⟩

theorem Coherent.clear_eq (h : q.Coherent) : q.clear = .ok q.cleared :=
  bind_eq_ok.mpr ⟨_, foldlM_set fun _ hc => h.lt_size hc, rfl⟩

theorem Coherent.cleared (h : q.Coherent) : q.cleared.Coherent := by
  refine ⟨List.nodup_nil, fun c => ?_⟩
  have hflag : q.cleared.isEnqueued c = true ↔ c ∉ q.toList ∧ q.isEnqueued c = true :=
    getD_get?_unflagAll q.flags q.toList c
  have hlist : q.cleared.toList = [] := rfl
  rw [hflag, h.flagged, hlist]
  simp

theorem Coherent.enqueueAll (h : q.Coherent) (ids : List ConstraintId) :
    (ids.foldl Queue.enqueue q).Coherent := by
  induction ids generalizing q with
  | nil => exact h
  | cons c ids ih => exact ih (h.enqueue c)

theorem Coherent.mem_enqueueAll (h : q.Coherent) :
    d ∈ (ids.foldl Queue.enqueue q).toList ↔ d ∈ ids ∨ d ∈ q.toList := by
  induction ids generalizing q with
  | nil => simp
  | cons c ids ih =>
    rw [List.foldl_cons, ih (h.enqueue c), h.mem_enqueue, List.mem_cons, or_left_comm, or_assoc]

theorem length_enqueueAll_le (q : Queue) (ids : List ConstraintId) :
    (ids.foldl Queue.enqueue q).length ≤ q.length + ids.length := by
  induction ids generalizing q with
  | nil => exact Nat.le_refl _
  | cons c ids ih =>
    have hone : (q.enqueue c).length ≤ q.length + 1 := by
      rw [← length_toList, ← length_toList, toList_enqueue]
      split <;> simp
    rw [List.foldl_cons, List.length_cons]
    have := ih (q.enqueue c)
    omega

end Queue

end FiniteDomain
