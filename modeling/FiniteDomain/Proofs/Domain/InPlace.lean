import FiniteDomain.Proofs.Domain
import FiniteDomain.Proofs.Run
/-!
# Domains in place

A domain can be laid out in separate parts: the values in an array, a table of their positions, a
mark for each position, a counter of the marks, and the assigned values with the latest at the end.
The parts are written one after the other. Kept together they are a variable: every operation answers
as that of the variable does, and writes what it answers.
-/
namespace FiniteDomain

structure DomainStore where
  name : String
  fullDomain : Array Int
  /-- Where a value stands in the full domain. -/
  positions : Std.HashMap Int Nat
  present : Array Bool
  size : Nat
  /-- The assigned values, the latest last. -/
  assignments : Array Int

abbrev DomainM := EStateM Breach DomainStore

namespace DomainStore

/-- Enters values from position `i` on, up to one that has its position already. -/
def enter (positions : Std.HashMap Int Nat) (i : Nat) :
    List Int → Except Int (Std.HashMap Int Nat)
  | [] => .ok positions
  | a :: as => if positions.contains a then .error a else enter (positions.insert a i) (i + 1) as

def create (name : String) (domain : List Int) : Except ModelError DomainStore :=
  if domain.isEmpty then .error (.emptyDomain name)
  else match enter ∅ 0 domain with
    | .error value => .error (.duplicateDomainValue name value)
    | .ok positions => .ok
      { name, positions
        fullDomain := domain.toArray
        present := Array.replicate domain.length true
        size := domain.length
        assignments := #[] }

def contains (s : DomainStore) (a : Int) : Bool := (s.positions[a]?).any fun i => s.present[i]? == some true

def lacks (s : DomainStore) (a : Int) : Bool := (s.positions[a]?).any fun i => s.present[i]? == some false

def currentDomain (s : DomainStore) : List Int :=
  (s.fullDomain.toList.zip s.present.toList).filterMap fun c => if c.2 then some c.1 else none

def assignedValue (s : DomainStore) : Option Int := s.assignments.back?

/-- Writes the mark of a value, if it has a position. -/
def mark (a : Int) (present : Bool) : DomainM Unit := do
  if let some i := (← get).positions[a]? then
    modify fun s => { s with present := s.present.setIfInBounds i present }

def prune (a : Int) : DomainM Unit := do
  let s ← get
  unless s.contains a do throw (.pruneAbsent a s.name)
  mark a false
  modify fun s => { s with size := s.size - 1 }

def restore (a : Int) : DomainM Unit := do
  let s ← get
  unless s.lacks a do throw (.restoreMisplaced a s.name)
  mark a true
  modify fun s => { s with size := s.size + 1 }

def assign (a : Int) : DomainM Unit := do
  let s ← get
  unless s.contains a do throw (.assignAbsent a s.name)
  modify fun s => { s with assignments := s.assignments.push a }

def unassign : DomainM Unit := do
  let s ← get
  if s.assignments.isEmpty then throw (.unassignFree s.name)
  modify fun s => { s with assignments := s.assignments.pop }

end DomainStore

def DomainOp.serve : DomainOp → DomainM Unit
  | prune a => DomainStore.prune a
  | restore a => DomainStore.restore a
  | assign a => DomainStore.assign a
  | unassign => DomainStore.unassign

/-- The parts agree with one another and with the variable. -/
structure DomainStore.Represents (s : DomainStore) (x : Variable) : Prop where
  name_eq : s.name = x.name
  fullDomain_eq : s.fullDomain.toList = x.fullDomain
  positions_iff : ∀ {a : Int} {i : Nat}, s.positions[a]? = some i ↔ x.fullDomain[i]? = some a
  present_eq : s.present.toList = x.candidates.map Candidate.present
  size_eq : s.size = x.size
  assignments_eq : s.assignments.toList = x.assignments.reverse

namespace DomainStore
variable {s t : DomainStore} {x y : Variable} {a : Int} {p : Bool}

namespace Represents

theorem marked_iff (h : s.Represents x) :
    ((s.positions[a]?).any fun i => s.present[i]? == some p) = true ↔
      (⟨a, p⟩ : Candidate) ∈ x.candidates := by
  have hposition (i : Nat) : s.positions[a]? = some i ∧ s.present[i]? = some p ↔
      x.candidates[i]? = some ⟨a, p⟩ := by
    rw [h.positions_iff, ← Array.getElem?_toList, h.present_eq, Variable.fullDomain,
      List.getElem?_map, List.getElem?_map]
    cases x.candidates[i]? with
    | none => simp
    | some c =>
      cases c
      simp
  simp only [Option.any_eq_true, beq_iff_eq, hposition, List.mem_iff_getElem?]

theorem contains_eq (h : s.Represents x) (a : Int) : s.contains a = x.contains a := by
  rw [Bool.eq_iff_iff, Variable.contains_iff]
  exact h.marked_iff

theorem lacks_eq (h : s.Represents x) (a : Int) : s.lacks a = x.lacks a := by
  rw [Bool.eq_iff_iff, Variable.lacks_iff]
  exact h.marked_iff

theorem currentDomain_eq (h : s.Represents x) : s.currentDomain = x.currentDomain := by
  rw [currentDomain, h.fullDomain_eq, h.present_eq, Variable.fullDomain, List.zip_map',
    List.filterMap_map]
  rfl

theorem assignedValue_eq (h : s.Represents x) : s.assignedValue = x.assignedValue := by
  rw [assignedValue, Variable.assignedValue, ← Array.getLast?_toList, h.assignments_eq,
    List.getLast?_reverse]

end Represents

theorem ends_mark {i : Nat} (hi : s.positions[a]? = some i) {Q : PUnit → DomainStore → Prop}
    {E : Breach → DomainStore → Prop} :
    Ends (mark a p) s Q E ↔ Q ⟨⟩ { s with present := s.present.setIfInBounds i p } := by
  rw [mark, ends_bind, ends_get, hi]
  exact Iff.rfl

theorem map_present_marked (hnodup : x.fullDomain.Nodup) {i : Nat}
    (hi : x.fullDomain[i]? = some a) (p : Bool) :
    (x.marked a p).map Candidate.present = (x.candidates.map Candidate.present).set i p := by
  have hlt : i < x.fullDomain.length := (List.getElem?_eq_some_iff.mp hi).1
  apply List.ext_getElem?
  intro k
  rw [Variable.marked, List.map_map, List.getElem?_map, List.getElem?_set, List.getElem?_map]
  have hvalue (c : Candidate) (hc : x.candidates[k]? = some c) : c.value = a ↔ i = k := by
    have hk : x.fullDomain[k]? = some c.value := by
      rw [Variable.fullDomain, List.getElem?_map, hc, Option.map_some]
    constructor
    · intro ha
      exact (List.getElem?_inj hlt hnodup).mp (by rw [hi, hk, ha])
    · intro hik
      rw [← hik, hi] at hk
      exact (Option.some.inj hk).symm
  cases hc : x.candidates[k]? with
  | none =>
    have hout : x.candidates.length ≤ k := List.getElem?_eq_none_iff.mp hc
    rw [Variable.fullDomain, List.length_map] at hlt
    rw [if_neg (by omega)]
    rfl
  | some c =>
    have hin : k < x.candidates.length := (List.getElem?_eq_some_iff.mp hc).1
    by_cases hik : i = k
    · simp [(hvalue c hc).mpr hik, hik, hin]
    · simp [mt (hvalue c hc).mp hik, hik]

theorem Represents.marked (h : s.Represents x) (hnodup : x.fullDomain.Nodup) {i : Nat}
    (hi : s.positions[a]? = some i) (p : Bool) (n : Nat) :
    Represents { s with present := s.present.setIfInBounds i p, size := n }
      { x with candidates := x.marked a p, size := n } where
  name_eq := h.name_eq
  fullDomain_eq := h.fullDomain_eq.trans (Variable.map_value_marked x a p).symm
  positions_iff := by
    intro b k
    rw [Variable.fullDomain, Variable.map_value_marked]
    exact h.positions_iff
  present_eq := by
    rw [Array.toList_setIfInBounds, h.present_eq,
      map_present_marked hnodup (h.positions_iff.mp hi)]
  size_eq := rfl
  assignments_eq := h.assignments_eq

theorem Represents.exists_position (h : s.Represents x) (ha : (⟨a, p⟩ : Candidate) ∈ x.candidates) :
    ∃ i, s.positions[a]? = some i := by
  obtain ⟨i, hi⟩ := List.mem_iff_getElem?.mp ha
  refine ⟨i, h.positions_iff.mpr ?_⟩
  rw [Variable.fullDomain, List.getElem?_map, hi]
  rfl

theorem Represents.ends_prune (h : s.Represents x) (hnodup : x.fullDomain.Nodup) (a : Int) :
    Ends (prune a) s (fun _ t => ∃ y, x.prune a = .ok y ∧ t.Represents y)
      (fun b t => x.prune a = .error b ∧ t = s) := by
  rw [prune, ends_bind, ends_get, h.contains_eq, Variable.prune, h.name_eq]
  by_cases ha : x.contains a = true
  · obtain ⟨i, hi⟩ := h.exists_position (Variable.contains_iff.mp ha)
    rw [if_pos ha, if_pos ha]
    refine ends_bind.mpr ((ends_mark hi).mpr ⟨_, rfl, ?_⟩)
    rw [h.size_eq]
    exact h.marked hnodup hi false (x.size - 1)
  · rw [if_neg ha, if_neg ha]
    exact ⟨rfl, rfl⟩

theorem Represents.ends_restore (h : s.Represents x) (hnodup : x.fullDomain.Nodup) (a : Int) :
    Ends (restore a) s (fun _ t => ∃ y, x.restore a = .ok y ∧ t.Represents y)
      (fun b t => x.restore a = .error b ∧ t = s) := by
  rw [restore, ends_bind, ends_get, h.lacks_eq, Variable.restore, h.name_eq]
  by_cases ha : x.lacks a = true
  · obtain ⟨i, hi⟩ := h.exists_position (Variable.lacks_iff.mp ha)
    rw [if_pos ha, if_pos ha]
    refine ends_bind.mpr ((ends_mark hi).mpr ⟨_, rfl, ?_⟩)
    rw [h.size_eq]
    exact h.marked hnodup hi true (x.size + 1)
  · rw [if_neg ha, if_neg ha]
    exact ⟨rfl, rfl⟩

theorem Represents.ends_assign (h : s.Represents x) (a : Int) :
    Ends (assign a) s (fun _ t => ∃ y, x.assign a = .ok y ∧ t.Represents y)
      (fun b t => x.assign a = .error b ∧ t = s) := by
  rw [assign, ends_bind, ends_get, h.contains_eq, Variable.assign, h.name_eq]
  by_cases ha : x.contains a = true
  · rw [if_pos ha, if_pos ha]
    refine ⟨_, rfl, h.name_eq, h.fullDomain_eq, h.positions_iff, h.present_eq, h.size_eq, ?_⟩
    simp [h.assignments_eq]
  · rw [if_neg ha, if_neg ha]
    exact ⟨rfl, rfl⟩

theorem Represents.ends_unassign (h : s.Represents x) :
    Ends unassign s (fun _ t => ∃ y, x.unassign = .ok y ∧ t.Represents y)
      (fun b t => x.unassign = .error b ∧ t = s) := by
  have hempty : s.assignments.isEmpty = x.assignments.isEmpty := by
    rw [← Array.isEmpty_toList, h.assignments_eq, List.isEmpty_reverse]
  rw [unassign, ends_bind, ends_get, hempty, Variable.unassign, h.name_eq]
  cases hx : x.assignments with
  | nil => exact ⟨rfl, rfl⟩
  | cons a rest =>
    refine ⟨_, rfl, h.name_eq, h.fullDomain_eq, h.positions_iff, h.present_eq, h.size_eq, ?_⟩
    simp [h.assignments_eq, hx]

/-- Every operation writes what the operation on the variable answers, or refuses as that does and
has written nothing. -/
theorem Represents.ends_serve (h : s.Represents x) (hnodup : x.fullDomain.Nodup) (op : DomainOp) :
    Ends op.serve s (fun _ t => ∃ y, op.apply x = .ok y ∧ t.Represents y)
      (fun b t => op.apply x = .error b ∧ t = s) := by
  cases op with
  | prune a => exact h.ends_prune hnodup a
  | restore a => exact h.ends_restore hnodup a
  | assign a => exact h.ends_assign a
  | unassign => exact h.ends_unassign

theorem positions_insert_iff {positions : Std.HashMap Int Nat} {done : List Int} {b : Int}
    (h : ∀ {a : Int} {i : Nat}, positions[a]? = some i ↔ done[i]? = some a) (hb : b ∉ done) {i : Nat} :
    (positions.insert b done.length)[a]? = some i ↔ (done ++ [b])[i]? = some a := by
  have hfresh : done[i]? ≠ some b := fun hi => hb (List.mem_of_getElem? hi)
  rw [Std.HashMap.getElem?_insert, List.getElem?_append, List.getElem?_singleton]
  by_cases hab : b = a
  · subst hab
    rw [if_pos (beq_self_eq_true b), Option.some.injEq]
    by_cases hi : i < done.length
    · rw [if_pos hi]
      exact ⟨fun he => absurd he.symm (Nat.ne_of_lt hi), fun he => absurd he hfresh⟩
    · have hend : i - done.length = 0 ↔ done.length = i := by omega
      simp [hi, hend]
  · rw [if_neg (by simpa using hab), h]
    by_cases hi : i < done.length
    · rw [if_pos hi]
    · rw [if_neg hi, List.getElem?_eq_none (Nat.le_of_not_lt hi)]
      simp [hab]

/-- The table is filled up to the first value that stands before already. -/
theorem enter_spec {positions : Std.HashMap Int Nat} {done seen domain : List Int}
    (h : ∀ {a : Int} {i : Nat}, positions[a]? = some i ↔ done[i]? = some a)
    (hseen : ∀ a, a ∈ seen ↔ a ∈ done) :
    match Variable.firstRepeat seen domain with
    | some a => enter positions done.length domain = .error a
    | none => ∃ filled, enter positions done.length domain = .ok filled ∧
        ∀ {a : Int} {i : Nat}, filled[a]? = some i ↔ (done ++ domain)[i]? = some a := by
  induction domain generalizing positions done seen with
  | nil =>
    refine ⟨positions, rfl, fun {a i} => ?_⟩
    rw [List.append_nil]
    exact h
  | cons b domain ih =>
    have hknown : positions.contains b = seen.contains b := by
      rw [Bool.eq_iff_iff, List.contains_iff_mem, hseen, List.mem_iff_getElem?,
        Std.HashMap.contains_eq_isSome_getElem?, Option.isSome_iff_exists]
      simp only [h]
    rw [Variable.firstRepeat, enter, hknown]
    by_cases hb : seen.contains b = true
    · rw [if_pos hb, if_pos hb]
    · rw [if_neg hb, if_neg hb]
      have hfresh : b ∉ done := fun hmem => hb (List.contains_iff_mem.mpr ((hseen b).mpr hmem))
      have hmore (a : Int) : a ∈ b :: seen ↔ a ∈ done ++ [b] := by simp [hseen, or_comm]
      have hnext := ih (positions_insert_iff h hfresh) hmore
      simpa using hnext

/-- A domain is laid out exactly where a variable is created, and then represents it. -/
theorem create_eq (name : String) (domain : List Int) :
    match Variable.create name domain with
    | .ok x => ∃ s, create name domain = .ok s ∧ s.Represents x
    | .error e => create name domain = .error e := by
  rw [Variable.create, create]
  by_cases hempty : domain.isEmpty = true
  · rw [if_pos hempty, if_pos hempty]
  · rw [if_neg hempty, if_neg hempty]
    have hnone {a : Int} {i : Nat} : (∅ : Std.HashMap Int Nat)[a]? = some i ↔
        ([] : List Int)[i]? = some a := by simp
    have hfilled := @enter_spec ∅ [] [] domain hnone fun _ => Iff.rfl
    cases hrepeat : Variable.firstRepeat [] domain with
    | some a =>
      rw [hrepeat] at hfilled
      have hfilled : enter ∅ 0 domain = .error a := hfilled
      simp only [hfilled]
    | none =>
      rw [hrepeat] at hfilled
      obtain ⟨positions, hpositions, hiff⟩ := hfilled
      have hpositions : enter ∅ 0 domain = .ok positions := hpositions
      simp only [hpositions]
      refine ⟨_, rfl, rfl, ?_, ?_, ?_, rfl, rfl⟩
      · rw [Variable.fullDomain_ofDomain]
      · intro a i
        rw [Variable.fullDomain_ofDomain]
        exact hiff
      · simp [Variable.ofDomain, Function.comp_def]

end DomainStore

end FiniteDomain
