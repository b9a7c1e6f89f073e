import FiniteDomain.Network.Basic
import FiniteDomain.Random.Shuffle
/-!
# Branching

Which unassigned variable is decided next, and in which order its values are tried.
-/
namespace FiniteDomain

/-- The unassigned variables in order. -/
def Network.unassigned (net : Network) : List VariableId :=
  net.vars.keys.filter fun x => (net.vars.get? x).any (!·.isAssigned)

/-- The number of values in the current domain of a variable. -/
def Network.domainSize (net : Network) (x : VariableId) : Nat :=
  (net.vars.get? x).elim 0 Variable.size

inductive VariableSelection where
  /-- The first in the order of creation. -/
  | inputOrder
  /-- The first of those with the fewest current values. -/
  | smallestDomain
deriving DecidableEq, Inhabited

inductive ValueSelection where
  | inDomainOrder
  /-- A random permutation of the domain. -/
  | random
deriving DecidableEq, Inhabited

/-- The first item of least weight. -/
def firstLeast {α : Type} (weight : α → Nat) : List α → Option α
  | [] => none
  | a :: as =>
    match firstLeast weight as with
    | none => some a
    | some b => if weight b < weight a then some b else some a

namespace VariableSelection

def all : List VariableSelection := [inputOrder, smallestDomain]

def label : VariableSelection → String
  | inputOrder => "input-order"
  | smallestDomain => "smallest-domain"

/-- The next variable to decide; there is none when all are assigned. -/
def select (selection : VariableSelection) (net : Network) : Option VariableId :=
  match selection with
  | inputOrder => net.unassigned.head?
  | smallestDomain => firstLeast net.domainSize net.unassigned

end VariableSelection

namespace ValueSelection

def all : List ValueSelection := [inDomainOrder, random]

def label : ValueSelection → String
  | inDomainOrder => "in-domain-order"
  | random => "random"

/-- The values in the order in which they are tried. -/
def order (selection : ValueSelection) (values : List Int) (g : Generator) : List Int × Generator :=
  match selection with
  | inDomainOrder => (values, g)
  | random => shuffle values g

end ValueSelection

end FiniteDomain
