import Std.Data.TreeSet
/-!
# Sets of tuples

The tuples that satisfy a constraint, kept in lexicographic order.
-/
namespace FiniteDomain

/-- A finite set of tuples of values. -/
structure TupleSet where
  tree : Std.TreeSet (List Int) compare

namespace TupleSet

def ofList (tuples : List (List Int)) : TupleSet := ⟨.ofList tuples⟩

instance : Inhabited TupleSet := ⟨ofList []⟩

def contains (s : TupleSet) (tuple : List Int) : Bool := s.tree.contains tuple

def size (s : TupleSet) : Nat := s.tree.size

/-- The tuples in lexicographic order. -/
def toList (s : TupleSet) : List (List Int) := s.tree.toList

/-- Whether some tuple passes the test; the look-out ends at the first that does. -/
def any (s : TupleSet) (test : List Int → Bool) : Bool := Id.run do
  for tuple in s.tree do
    if test tuple then return true
  return false

instance : Membership (List Int) TupleSet := ⟨fun s tuple => s.contains tuple = true⟩

instance (tuple : List Int) (s : TupleSet) : Decidable (tuple ∈ s) :=
  inferInstanceAs (Decidable (s.contains tuple = true))

theorem mem_iff {tuple : List Int} {s : TupleSet} : tuple ∈ s ↔ s.contains tuple = true := Iff.rfl

@[simp] theorem mem_ofList {tuple : List Int} {tuples : List (List Int)} :
    tuple ∈ ofList tuples ↔ tuple ∈ tuples := by
  simp [mem_iff, contains, ofList]

@[simp] theorem mem_toList {tuple : List Int} {s : TupleSet} : tuple ∈ s.toList ↔ tuple ∈ s := by
  simp [mem_iff, contains, toList]

end TupleSet

end FiniteDomain
