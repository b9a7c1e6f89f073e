import FiniteDomain.Proofs.Propagation.Queue
import FiniteDomain.Proofs.Run
/-!
# Queues in place

A queue can be laid out in two parts: the constraints in the order they leave, and the table of their
flags. A flag is written only where the table has a place, and only a new constraint makes it grow.
Whatever is called in whatever order, these stay the parts of the queue, and both behave as a list
without repetitions.
-/
namespace FiniteDomain

structure QueueStore where
  ids : List ConstraintId
  flags : Store ConstraintId Bool

/-- What goes wrong in a queue whose parts do not fit. -/
inductive QueueFault where
  | breach (b : Breach)
  /-- A constraint leaves the queue without a flag. -/
  | unflagged (c : ConstraintId)

abbrev QueueM := EStateM QueueFault QueueStore

namespace QueueStore

def empty : QueueStore := ⟨[], .empty⟩

def isEnqueued (s : QueueStore) (c : ConstraintId) : Bool := (s.flags.get? c).getD false

/-- An access of the table, which ends the step where it is out of bounds. -/
def access {α : Type} : Except Breach α → QueueM α
  | .ok a => pure a
  | .error b => throw (.breach b)

def mark (c : ConstraintId) (b : Bool) : QueueM Unit := do
  let flags ← access ((← get).flags.set c b)
  modify fun s => { s with flags }

def enqueue (c : ConstraintId) : QueueM Unit := do
  unless (← get).isEnqueued c do
    modify fun s => { s with flags := s.flags.accommodate c false }
    mark c true
    modify fun s => { s with ids := s.ids ++ [c] }

/-- With `checked`, reads the flag of `c`, which has to be set. -/
def inspect (checked : Bool) (c : ConstraintId) : QueueM Unit := do
  if checked then
    unless ← access ((← get).flags.fetch c) do throw (.unflagged c)

def pop (checked : Bool) : QueueM (Option ConstraintId) := do
  match (← get).ids with
  | [] => return none
  | c :: rest =>
    modify fun s => { s with ids := rest }
    inspect checked c
    mark c false
    return some c

def clear : QueueM Unit := do
  let drained := (← get).ids
  -- The constraints are gone also where a flag cannot be written.
  modify fun s => { s with ids := [] }
  drained.forM fun c => mark c false

end QueueStore

inductive QueueOp where
  | enqueue (c : ConstraintId)
  | pop
  | clear
deriving DecidableEq

namespace QueueOp

/-- The constraint that a call hands out, and what it makes of a list without repetitions. -/
def onList : QueueOp → StateM (List ConstraintId) (Option ConstraintId)
  | enqueue c => fun ids => (none, if c ∈ ids then ids else ids ++ [c])
  | pop => fun ids => (ids.head?, ids.tail)
  | clear => fun _ => (none, [])

def onQueue : QueueOp → StateT Queue (Except Breach) (Option ConstraintId)
  | enqueue c => fun q => return (none, q.enqueue c)
  | pop => fun q => do
    match ← q.pop with
    | none => return (none, q)
    | some (c, rest) => return (some c, rest)
  | clear => fun q => return (none, ← q.clear)

def inPlace (checked : Bool) : QueueOp → QueueM (Option ConstraintId)
  | enqueue c => do
    QueueStore.enqueue c
    return none
  | pop => QueueStore.pop checked
  | clear => do
    QueueStore.clear
    return none

end QueueOp

namespace Queue

def laidOut (q : Queue) : QueueStore := ⟨q.toList, q.flags⟩

end Queue

namespace QueueStore
variable {s : QueueStore} {q : Queue} {c : ConstraintId}

theorem run_mark (hc : Key.index c < s.flags.size) (b : Bool) :
    (mark c b).run s = .ok () { s with flags := s.flags.modify c fun _ => b } := by
  rw [mark, EStateM.run_bind, EStateM.run_get]
  dsimp only
  rw [Store.set_of_lt_size hc]
  rfl

theorem run_inspect (hc : s.flags.get? c = some true) (checked : Bool) :
    (inspect checked c).run s = .ok () s := by
  cases checked with
  | false => rfl
  | true =>
    have hfetch : s.flags.fetch c = .ok true := Store.fetch_of_get? hc
    rw [inspect, if_pos rfl, EStateM.run_bind, EStateM.run_get]
    dsimp only
    rw [hfetch]
    rfl

theorem run_mark_forM {ids : List ConstraintId} (h : ∀ c ∈ ids, Key.index c < s.flags.size) :
    (ids.forM fun c => mark c false).run s =
      .ok () { s with flags := ids.foldl Queue.unflag s.flags } := by
  induction ids generalizing s with
  | nil => rfl
  | cons c ids ih =>
    obtain ⟨hc, hids⟩ := List.forall_mem_cons.mp h
    rw [List.forM_eq_forM, List.forM_cons, EStateM.run_bind, run_mark hc]
    apply ih
    intro d hd
    rw [Store.size_modify]
    exact hids d hd

theorem run_enqueue (q : Queue) (c : ConstraintId) :
    (enqueue c).run q.laidOut = .ok () (q.enqueue c).laidOut := by
  have hread : q.laidOut.isEnqueued c = q.isEnqueued c := rfl
  rw [enqueue, EStateM.run_bind, EStateM.run_get]
  dsimp only
  rw [hread]
  by_cases hc : q.isEnqueued c = true
  · rw [if_pos hc, Queue.enqueue, if_pos hc]
    rfl
  · have hplace := Store.lt_size_accommodate q.flags c false
    have hmark := run_mark (s := ⟨q.toList, q.flags.accommodate c false⟩) hplace true
    have hlaid : (q.enqueue c).laidOut = ⟨q.toList ++ [c], Queue.flag q.flags c⟩ := by
      rw [Queue.laidOut, Queue.toList_enqueue, if_neg hc, Queue.enqueue, if_neg hc]
    rw [if_neg hc, hlaid, EStateM.run_bind, EStateM.run_modify]
    dsimp only [Queue.laidOut]
    rw [EStateM.run_bind, hmark]
    rfl

theorem run_pop_of_nil (h : q.toList = []) (checked : Bool) :
    (pop checked).run q.laidOut = .ok none q.laidOut := by
  have hids : q.laidOut.ids = [] := h
  rw [pop, EStateM.run_bind, EStateM.run_get]
  simp only [hids]
  rfl

/-- The constraint that leaves has its place and its flag, whether or not the flag is read. -/
theorem run_pop (h : q.Coherent) {rest : Queue} (hpop : q.pop = .ok (some (c, rest)))
    (checked : Bool) : (pop checked).run q.laidOut = .ok (some c) rest.laidOut := by
  obtain ⟨hlist, hplace, hflags⟩ := Queue.of_pop hpop
  have hids : q.laidOut.ids = c :: rest.toList := hlist
  have hinspect := run_inspect (s := ⟨rest.toList, q.flags⟩)
    (h.get?_flags (hlist ▸ List.mem_cons_self)) checked
  have hmark := run_mark (s := ⟨rest.toList, q.flags⟩) hplace false
  have hlaid : rest.laidOut = ⟨rest.toList, Queue.unflag q.flags c⟩ := by
    rw [Queue.laidOut, hflags]
  rw [pop, EStateM.run_bind, EStateM.run_get]
  simp only [hids, hlaid]
  rw [EStateM.run_bind, EStateM.run_modify]
  dsimp only [Queue.laidOut]
  rw [EStateM.run_bind, hinspect]
  dsimp only
  rw [EStateM.run_bind, hmark]
  rfl

theorem run_clear (h : q.Coherent) : clear.run q.laidOut = .ok () q.cleared.laidOut :=
  run_mark_forM (s := ⟨[], q.flags⟩) fun _ hc => h.lt_size hc

end QueueStore

namespace Queue

/-- A queue, its list and its parts hand out the same, and what is left of the three is again a queue,
its list and its parts. None of them ends early. -/
structure Agree {α : Type} (onQueue : StateT Queue (Except Breach) α)
    (onList : StateM (List ConstraintId) α) (inPlace : QueueM α) (q : Queue) (a : α) (r : Queue) :
    Prop where
  queue_eq : onQueue.run q = .ok (a, r)
  coherent : r.Coherent
  list_eq : onList.run q.toList = (a, r.toList)
  inPlace_eq : inPlace.run q.laidOut = .ok a r.laidOut

variable {q r t : Queue} {α β : Type} {a : α} {b : β} {m : StateT Queue (Except Breach) α}
  {m' : StateM (List ConstraintId) α} {m'' : QueueM α} {f : α → StateT Queue (Except Breach) β}
  {f' : α → StateM (List ConstraintId) β} {f'' : α → QueueM β}

theorem Coherent.agree_pure (h : q.Coherent) (a : α) : Agree (pure a) (pure a) (pure a) q a q :=
  ⟨rfl, h, rfl, rfl⟩

theorem Agree.bind (h : Agree m m' m'' q a r) (hf : Agree (f a) (f' a) (f'' a) r b t) :
    Agree (m >>= f) (m' >>= f') (m'' >>= f'') q b t where
  queue_eq := by
    rw [StateT.run_bind]
    exact bind_eq_ok.mpr ⟨_, h.queue_eq, hf.queue_eq⟩
  coherent := hf.coherent
  list_eq := by
    change (f' (m'.run q.toList).1).run (m'.run q.toList).2 = _
    rw [h.list_eq]
    exact hf.list_eq
  inPlace_eq := by
    rw [EStateM.run_bind, h.inPlace_eq]
    exact hf.inPlace_eq

theorem Coherent.exists_agree_call (h : q.Coherent) (op : QueueOp) :
    ∃ a r, ∀ checked, Agree op.onQueue op.onList (op.inPlace checked) q a r := by
  cases op with
  | enqueue c =>
    refine ⟨none, q.enqueue c, fun checked => ⟨rfl, h.enqueue c, ?_, ?_⟩⟩
    · have hlist : (q.enqueue c).toList = if c ∈ q.toList then q.toList else q.toList ++ [c] := by
        simp only [toList_enqueue, h.flagged]
      rw [hlist]
      rfl
    · rw [QueueOp.inPlace, EStateM.run_bind, QueueStore.run_enqueue]
      rfl
  | pop =>
    obtain ⟨popped, hpop⟩ := h.exists_pop
    cases popped with
    | none =>
      have hlist : q.toList = [] := pop_eq_ok_none_iff.mp hpop
      refine ⟨none, q, fun checked => ⟨?_, h, ?_, QueueStore.run_pop_of_nil hlist checked⟩⟩
      · exact bind_eq_ok.mpr ⟨_, hpop, rfl⟩
      · rw [hlist]
        rfl
    | some popped =>
      obtain ⟨c, rest⟩ := popped
      refine ⟨some c, rest, fun checked => ⟨?_, h.of_pop hpop, ?_, QueueStore.run_pop h hpop checked⟩⟩
      · exact bind_eq_ok.mpr ⟨_, hpop, rfl⟩
      · rw [toList_of_pop hpop]
        rfl
  | clear =>
    refine ⟨none, q.cleared, fun checked => ⟨?_, h.cleared, rfl, ?_⟩⟩
    · exact bind_eq_ok.mpr ⟨_, h.clear_eq, rfl⟩
    · rw [QueueOp.inPlace, EStateM.run_bind, QueueStore.run_clear h]
      rfl

theorem Coherent.exists_agree_calls (h : q.Coherent) (ops : List QueueOp) :
    ∃ as r, ∀ checked, Agree (ops.mapM QueueOp.onQueue) (ops.mapM QueueOp.onList)
      (ops.mapM (QueueOp.inPlace checked)) q as r := by
  induction ops generalizing q with
  | nil => exact ⟨[], q, fun _ => h.agree_pure []⟩
  | cons op ops ih =>
    obtain ⟨a, r, hcall⟩ := h.exists_agree_call op
    obtain ⟨as, t, hcalls⟩ := ih (hcall true).coherent
    refine ⟨a :: as, t, fun checked => ?_⟩
    rw [List.mapM_cons, List.mapM_cons, List.mapM_cons]
    refine (hcall checked).bind ((hcalls checked).bind ?_)
    exact (hcalls checked).coherent.agree_pure (a :: as)

/-- Whatever is called in whatever order, the queue hands out what a list without repetitions does
and holds its constraints in its order; no access of its flags is out of bounds. A constraint is
flagged exactly if it is in the list, also one beyond the table. Laid out in two parts the queue does
the same, whether or not flags are read before they are taken back: no call faults, and what is in the
queue has its place in the table. -/
theorem refines_list (ops : List QueueOp) :
    let listed := (ops.mapM QueueOp.onList).run []
    ∃ left, (ops.mapM QueueOp.onQueue).run empty = .ok (listed.1, left) ∧
    left.toList = listed.2 ∧ listed.2.Nodup ∧
    (∀ c, left.isEnqueued c = true ↔ c ∈ listed.2) ∧ (left.isEmpty = true ↔ listed.2 = []) ∧
    -- in two parts
    ∀ checked, ∃ s, (ops.mapM (QueueOp.inPlace checked)).run .empty = .ok listed.1 s ∧
      s.ids = listed.2 ∧ s.flags = left.flags ∧
      (∀ c, s.isEnqueued c = true ↔ c ∈ listed.2) ∧
      ∀ c ∈ listed.2, s.flags.get? c = some true := by
  intro listed
  obtain ⟨as, left, hagree⟩ := coherent_empty.exists_agree_calls ops
  have hleft : left.Coherent := (hagree true).coherent
  have hlisted : listed = (as, left.toList) := (hagree true).list_eq
  rw [hlisted]
  refine ⟨left, (hagree true).queue_eq, rfl, hleft.nodup, hleft.flagged, isEmpty_eq_true_iff, ?_⟩
  intro checked
  exact ⟨left.laidOut, (hagree checked).inPlace_eq, rfl, rfl, hleft.flagged,
    fun c hc => hleft.get?_flags hc⟩

/-- A constraint queued twice leaves once, and one that was cleared away can come back. -/
example :
    (([.enqueue ⟨3⟩, .enqueue ⟨0⟩, .enqueue ⟨3⟩, .pop, .clear, .enqueue ⟨0⟩, .pop, .pop].mapM
      QueueOp.onQueue).run empty).map Prod.fst =
      .ok [none, none, none, some ⟨3⟩, none, none, some ⟨0⟩, none] := rfl

end Queue

end FiniteDomain
