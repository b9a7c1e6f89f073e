import FiniteDomain.Store
/-!
# The queue of constraints to revise

First in, first out, with every constraint at most once. A flag per constraint says whether it is
in the queue; the table of flags grows with the constraints that are met.
-/
namespace FiniteDomain

structure Queue where
  /-- The end that constraints are taken from. -/
  front : List ConstraintId
  /-- The end that constraints are added to, the latest first. -/
  back : List ConstraintId
  flags : Store ConstraintId Bool

namespace Queue

def empty : Queue := ⟨[], [], .empty⟩

instance : Inhabited Queue := ⟨empty⟩

/-- The constraints in the order they leave the queue. -/
def toList (q : Queue) : List ConstraintId := q.front ++ q.back.reverse

def isEmpty (q : Queue) : Bool := q.front.isEmpty && q.back.isEmpty

def length (q : Queue) : Nat := q.front.length + q.back.length

/-- Whether the flag of `c` is set; beyond the table it is not. -/
def isEnqueued (q : Queue) (c : ConstraintId) : Bool := (q.flags.get? c).getD false

/-- Marks that `c` is in the queue, and grows the table to have a place for it. -/
def flag (flags : Store ConstraintId Bool) (c : ConstraintId) : Store ConstraintId Bool :=
  (flags.accommodate c false).modify c fun _ => true

/-- Appends `c` unless it is in the queue. -/
def enqueue (q : Queue) (c : ConstraintId) : Queue :=
  if q.isEnqueued c then q
  else { q with back := c :: q.back, flags := flag q.flags c }

/-- The first constraint and those behind it, with all flags as they are. -/
def first? (q : Queue) : Option (ConstraintId × Queue) :=
  match q.front with
  | c :: front => some (c, { q with front })
  | [] =>
    match q.back.reverse with
    | [] => none
    | c :: front => some (c, ⟨front, [], q.flags⟩)

/-- Takes the first constraint out of the queue; its flag has to have its place. -/
def pop (q : Queue) : Except Breach (Option (ConstraintId × Queue)) :=
  match q.first? with
  | none => .ok none
  | some (c, rest) => return some (c, { rest with flags := ← rest.flags.set c false })

/-- Takes all constraints out of the queue; their flags have to have their places. -/
def clear (q : Queue) : Except Breach Queue :=
  return ⟨[], [], ← q.toList.foldlM (fun flags c => flags.set c false) q.flags⟩

theorem length_toList (q : Queue) : q.toList.length = q.length := by simp [toList, length]

@[simp] theorem toList_empty : empty.toList = [] := rfl

theorem toList_enqueue (q : Queue) (c : ConstraintId) :
    (q.enqueue c).toList = if q.isEnqueued c then q.toList else q.toList ++ [c] := by
  unfold enqueue
  split <;> simp [toList]

theorem first?_eq_none_iff (q : Queue) : q.first? = none ↔ q.toList = [] := by
  unfold first?
  split
  · next hf => simp [toList, hf]
  · next hf =>
    split
    · next hb => simp [toList, hf, hb]
    · next hb => simp [toList, hf, hb]

theorem of_first? {q rest : Queue} {c : ConstraintId} (h : q.first? = some (c, rest)) :
    q.toList = c :: rest.toList ∧ rest.flags = q.flags := by
  unfold first? at h
  split at h
  · next hf =>
    cases h
    exact ⟨by simp [toList, hf], rfl⟩
  · next hf =>
    split at h
    · cases h
    · next hb =>
      cases h
      exact ⟨by simp [toList, hf, hb], rfl⟩

end Queue

end FiniteDomain
