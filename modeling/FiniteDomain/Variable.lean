import FiniteDomain.Breach
import FiniteDomain.ModelError
/-!
# Variables

A variable keeps its full domain in the order of its creation, and marks which values are current.
Independently of the marks it carries a stack of assigned values. Pruning and restoring change
marks only, so that restoring what was pruned gives back the variable as it was.
-/
namespace FiniteDomain

/-- A value of a full domain, and whether it is still in the current domain. -/
structure Candidate where
  value : Int
  present : Bool
deriving DecidableEq

structure Variable where
  name : String
  /-- The full domain in order, each value with its mark. -/
  candidates : List Candidate
  /-- The number of values marked present. -/
  size : Nat
  /-- The assigned values, the latest first. -/
  assignments : List Int
deriving DecidableEq

namespace Variable

/-- The first value of a list that stands before already, among `seen` or in the list. -/
def firstRepeat (seen : List Int) : List Int → Option Int
  | [] => none
  | v :: vs => if seen.contains v then some v else firstRepeat (v :: seen) vs

/-- A variable with every value current and nothing assigned. -/
def ofDomain (name : String) (domain : List Int) : Variable :=
  ⟨name, domain.map (⟨·, true⟩), domain.length, []⟩

/-- A domain has at least one value and repeats none. -/
def create (name : String) (domain : List Int) : Except ModelError Variable :=
  if domain.isEmpty then .error (.emptyDomain name)
  else match firstRepeat [] domain with
    | some value => .error (.duplicateDomainValue name value)
    | none => .ok (ofDomain name domain)

/-- The values that the variable was created with. -/
def fullDomain (x : Variable) : List Int := x.candidates.map Candidate.value

/-- The values marked present, in the order of the full domain. -/
def currentDomain (x : Variable) : List Int :=
  x.candidates.filterMap fun c => if c.present then some c.value else none

/-- Whether `value` is in the current domain. -/
def contains (x : Variable) (value : Int) : Bool := x.candidates.contains ⟨value, true⟩

/-- Whether `value` is in the full domain but not in the current one. -/
def lacks (x : Variable) (value : Int) : Bool := x.candidates.contains ⟨value, false⟩

/-- The candidates with the mark of `value` set to `present`. -/
def marked (x : Variable) (value : Int) (present : Bool) : List Candidate :=
  x.candidates.map fun c => if c.value = value then ⟨value, present⟩ else c

/-- Takes a current value out of the current domain. -/
def prune (x : Variable) (value : Int) : Except Breach Variable :=
  if x.contains value then
    .ok { x with candidates := x.marked value false, size := x.size - 1 }
  else .error (.pruneAbsent value x.name)

/-- Puts a value of the full domain back into the current one. -/
def restore (x : Variable) (value : Int) : Except Breach Variable :=
  if x.lacks value then
    .ok { x with candidates := x.marked value true, size := x.size + 1 }
  else .error (.restoreMisplaced value x.name)

/-- Assigns a current value on top of what is assigned. -/
def assign (x : Variable) (value : Int) : Except Breach Variable :=
  if x.contains value then .ok { x with assignments := value :: x.assignments }
  else .error (.assignAbsent value x.name)

/-- Takes back the latest assignment. -/
def unassign (x : Variable) : Except Breach Variable :=
  match x.assignments with
  | [] => .error (.unassignFree x.name)
  | _ :: rest => .ok { x with assignments := rest }

def isAssigned (x : Variable) : Bool := !x.assignments.isEmpty

def assignedValue (x : Variable) : Option Int := x.assignments.head?

theorem mem_currentDomain {x : Variable} {value : Int} :
    value ∈ x.currentDomain ↔ x.contains value = true := by
  simp only [currentDomain, contains, List.mem_filterMap, List.contains_iff_mem]
  constructor
  · intro h
    obtain ⟨⟨v, p⟩, hc, h⟩ := h
    cases p <;> simp_all
  · intro h
    exact ⟨_, h, by simp⟩

@[simp] theorem fullDomain_ofDomain (name : String) (domain : List Int) :
    (ofDomain name domain).fullDomain = domain := by
  simp [ofDomain, fullDomain, Function.comp_def]

@[simp] theorem currentDomain_ofDomain (name : String) (domain : List Int) :
    (ofDomain name domain).currentDomain = domain := by
  simp only [currentDomain, ofDomain, List.filterMap_map]
  exact List.filterMap_some

end Variable

end FiniteDomain
