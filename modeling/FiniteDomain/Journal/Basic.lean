import FiniteDomain.Journal.Event
import FiniteDomain.Network.Basic
/-!
# Journals

What a run gives off, in order: the solutions it reports, and the events that are no more
detailed than the journal asks for.
-/
namespace FiniteDomain

inductive Entry where
  | event (e : Event)
  | solution (s : Solution)

structure Journal where
  /-- The most detailed level recorded; without one no event is. -/
  detail : Option Level
  /-- The entries, the latest first. -/
  latest : List Entry

namespace Journal

def empty (detail : Option Level) : Journal := ⟨detail, []⟩

/-- Whether events of a level are recorded. -/
def hears (j : Journal) (level : Level) : Bool :=
  match j.detail with
  | none => false
  | some detail => level.rank ≤ detail.rank

def record (j : Journal) (e : Event) : Journal :=
  if j.hears e.level then { j with latest := .event e :: j.latest } else j

def report (j : Journal) (s : Solution) : Journal := { j with latest := .solution s :: j.latest }

/-- The entries of `j`, then those of `later`. -/
def append (j later : Journal) : Journal := { j with latest := later.latest ++ j.latest }

/-- The entries in order. -/
def entries (j : Journal) : List Entry := j.latest.reverse

/-- The events recorded, in order. -/
def events (j : Journal) : List Event :=
  j.entries.filterMap fun
    | .event e => some e
    | .solution _ => none

/-- The solutions reported, in order. -/
def solutions (j : Journal) : List Solution :=
  j.entries.filterMap fun
    | .event _ => none
    | .solution s => some s

@[simp] theorem solutions_empty (detail : Option Level) : (empty detail).solutions = [] := rfl

@[simp] theorem solutions_record (j : Journal) (e : Event) :
    (j.record e).solutions = j.solutions := by
  unfold record
  split <;> simp [solutions, entries]

@[simp] theorem solutions_report (j : Journal) (s : Solution) :
    (j.report s).solutions = j.solutions ++ [s] := by
  simp [solutions, entries, report]

@[simp] theorem solutions_append (j later : Journal) :
    (j.append later).solutions = j.solutions ++ later.solutions := by
  simp [solutions, entries, append]

end Journal

end FiniteDomain
