import FiniteDomain.Store
import Mathlib.Data.List.Nodup
import Mathlib.Tactic.Common
/-!
# Laws of keyed stores

A store is determined by its look-ups. Each operation is described by what it does to them.
-/
namespace FiniteDomain.Store
variable {κ α β : Type} [Key κ]

theorem index_inj {j k : κ} : Key.index j = Key.index k ↔ j = k := by
  constructor
  · intro h
    rw [← Key.ofIndex_index j, h, Key.ofIndex_index]
  · intro h
    subst h
    rfl

theorem ext_get? {s t : Store κ α} (h : ∀ k, s.get? k = t.get? k) : s = t := by
  have hitems : s.items = t.items := by
    apply Array.ext_getElem?
    intro i
    have hi := h (Key.ofIndex i)
    simpa only [get?, Key.index_ofIndex] using hi
  cases s
  cases t
  exact congrArg Store.mk hitems

theorem get?_modify [DecidableEq κ] (s : Store κ α) (j k : κ) (f : α → α) :
    (s.modify j f).get? k = if k = j then (s.get? k).map f else s.get? k := by
  by_cases h : k = j
  · subst h
    simp [get?, modify, Array.getElem?_modify]
  · have hij : Key.index j ≠ Key.index k := fun e => h (index_inj.mp e).symm
    rw [if_neg h]
    simp [get?, modify, Array.getElem?_modify, hij]

theorem modify_of_get? [DecidableEq κ] {s : Store κ α} {k : κ} {a : α} (h : s.get? k = some a)
    (f : α → α) : (s.modify k fun _ => f a) = s.modify k f := by
  apply ext_get?
  intro j
  rw [get?_modify, get?_modify]
  by_cases hj : j = k
  · simp [hj, h]
  · rw [if_neg hj, if_neg hj]

theorem lt_size_of_get? {s : Store κ α} {k : κ} {a : α} (h : s.get? k = some a) :
    Key.index k < s.size := by
  by_contra hk
  rw [(get?_eq_none_iff s k).mpr (Nat.le_of_not_lt hk)] at h
  cases h

theorem get?_of_lt_size {s : Store κ α} {k : κ} (h : Key.index k < s.size) :
    ∃ a, s.get? k = some a := by
  cases hk : s.get? k with
  | some a => exact ⟨a, rfl⟩
  | none => exact absurd h (Nat.not_lt_of_le ((get?_eq_none_iff s k).mp hk))

theorem mem_keys {s : Store κ α} {k : κ} : k ∈ s.keys ↔ ∃ a, s.get? k = some a := by
  simp only [keys, List.mem_map, List.mem_range]
  constructor
  · intro h
    obtain ⟨i, hi, rfl⟩ := h
    exact get?_of_lt_size (by rwa [Key.index_ofIndex])
  · intro h
    obtain ⟨a, ha⟩ := h
    exact ⟨Key.index k, lt_size_of_get? ha, Key.ofIndex_index k⟩

theorem nodup_keys (s : Store κ α) : s.keys.Nodup := by
  refine List.Nodup.map_on ?_ List.nodup_range
  intro i _ j _ h
  rw [← Key.index_ofIndex (κ := κ) i, h, Key.index_ofIndex]

theorem keys_push (s : Store κ α) (a : α) : (s.push a).keys = s.keys ++ [s.nextKey] := by
  simp [keys, nextKey, List.range_succ]

theorem keys_congr {s : Store κ α} {t : Store κ β} (h : s.size = t.size) : s.keys = t.keys := by
  rw [keys, keys, h]

theorem get?_nextKey (s : Store κ α) : s.get? s.nextKey = none := by
  simp [get?_eq_none_iff, nextKey, Key.index_ofIndex]

theorem get?_push_of_some {s : Store κ α} {k : κ} {b : α} (a : α) (h : s.get? k = some b) :
    (s.push a).get? k = some b := by
  rw [get?_push, if_neg (Nat.ne_of_lt (lt_size_of_get? h)), h]

theorem get?_push_eq_some_iff {s : Store κ α} {k : κ} {a b : α} :
    (s.push a).get? k = some b ↔ (k = s.nextKey ∧ a = b) ∨ s.get? k = some b := by
  have hkey : Key.index k = s.size ↔ k = s.nextKey := by
    rw [← index_inj (j := k), nextKey, Key.index_ofIndex]
  rw [get?_push]
  by_cases h : k = s.nextKey
  · subst h
    simp [hkey.mpr rfl, get?_nextKey]
  · simp [mt hkey.mp h, h]

theorem mem_toList {s : Store κ α} {a : α} : a ∈ s.toList ↔ ∃ k, s.get? k = some a := by
  simp only [get?_eq, List.mem_iff_getElem?]
  constructor
  · intro h
    obtain ⟨i, hi⟩ := h
    exact ⟨Key.ofIndex i, by rwa [Key.index_ofIndex]⟩
  · intro h
    obtain ⟨k, hk⟩ := h
    exact ⟨Key.index k, hk⟩

theorem fetch_of_get? {s : Store κ α} {k : κ} {a : α} (h : s.get? k = some a) :
    s.fetch k = .ok a :=
  (fetch_eq_ok_iff s k a).mpr h

theorem alter_of_get? {s : Store κ α} {k : κ} {a b : α} {f : α → Except Breach α}
    (h : s.get? k = some a) (hf : f a = .ok b) : s.alter k f = .ok (s.modify k fun _ => b) := by
  have hk : Key.index k < s.items.size := lt_size_of_get? h
  have ha : s.items[Key.index k] = a := by
    simpa only [get?, Array.getElem?_eq_getElem hk, Option.some.injEq] using h
  have hset : s.items.set (Key.index k) b = s.items.modify (Key.index k) fun _ => b := by
    apply Array.ext_getElem?
    intro i
    rw [Array.getElem?_set, Array.getElem?_modify]
    split
    · next hi => rw [← hi, Array.getElem?_eq_getElem hk, Option.map_some]
    · rfl
  rw [alter, dif_pos hk, ha, hf]
  simp only [hset, modify]

theorem alter_eq_ok {s t : Store κ α} {k : κ} {f : α → Except Breach α} (h : s.alter k f = .ok t) :
    ∃ a b, s.get? k = some a ∧ f a = .ok b ∧ t = s.modify k fun _ => b := by
  by_cases hk : Key.index k < s.items.size
  · obtain ⟨a, ha⟩ := get?_of_lt_size hk
    cases hf : f a with
    | ok b =>
      rw [alter_of_get? ha hf] at h
      exact ⟨a, b, ha, hf, (Except.ok.inj h).symm⟩
    | error e =>
      have hget : s.items[Key.index k] = a := by
        simpa only [get?, Array.getElem?_eq_getElem hk, Option.some.injEq] using ha
      rw [alter, dif_pos hk, hget, hf] at h
      cases h
  · rw [alter, dif_neg hk] at h
    cases h

theorem set_of_lt_size [DecidableEq κ] {s : Store κ α} {k : κ} (h : Key.index k < s.size) (a : α) :
    s.set k a = .ok (s.modify k fun _ => a) := by
  obtain ⟨b, hb⟩ := get?_of_lt_size h
  exact alter_of_get? (f := fun _ => .ok a) hb rfl

theorem set_eq_ok {s t : Store κ α} {k : κ} {a : α} (h : s.set k a = .ok t) :
    Key.index k < s.size ∧ t = s.modify k fun _ => a := by
  obtain ⟨b, c, hb, hc, rfl⟩ := alter_eq_ok h
  cases hc
  exact ⟨lt_size_of_get? hb, rfl⟩

def mapKeyed (s : Store κ α) (f : κ → α → β) : Store κ β :=
  ⟨s.items.mapIdx fun i a => f (Key.ofIndex i) a⟩

@[simp] theorem size_mapKeyed (s : Store κ α) (f : κ → α → β) : (s.mapKeyed f).size = s.size := by
  simp [size, mapKeyed]

theorem get?_mapKeyed (s : Store κ α) (f : κ → α → β) (k : κ) :
    (s.mapKeyed f).get? k = (s.get? k).map (f k) := by
  simp [get?, mapKeyed, Key.ofIndex_index]

end FiniteDomain.Store
