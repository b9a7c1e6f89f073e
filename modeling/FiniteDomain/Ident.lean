/-!
# Identifiers

Variables and constraints are named by their position in the network that holds them.
`Key` is what a keyed store asks of such a name.
-/
namespace FiniteDomain

/-- A type whose values name the positions of a store. -/
class Key (κ : Type) where
  /-- The position that a key names. -/
  index : κ → Nat
  /-- The key of a position. -/
  ofIndex : Nat → κ
  index_ofIndex : ∀ n, index (ofIndex n) = n
  ofIndex_index : ∀ k, ofIndex (index k) = k

instance : Key Nat := ⟨id, id, fun _ => rfl, fun _ => rfl⟩

/-- The position of a variable in its network. -/
structure VariableId where
  index : Nat
deriving DecidableEq, Inhabited

/-- The position of a constraint in its network. -/
structure ConstraintId where
  index : Nat
deriving DecidableEq, Inhabited

instance : Key VariableId := ⟨VariableId.index, VariableId.mk, fun _ => rfl, fun _ => rfl⟩

instance : Key ConstraintId := ⟨ConstraintId.index, ConstraintId.mk, fun _ => rfl, fun _ => rfl⟩

/-- Variables are written `x0`, `x1`, … -/
def VariableId.label (x : VariableId) : String := "x" ++ toString x.index

/-- Constraints are written `c0`, `c1`, … -/
def ConstraintId.label (c : ConstraintId) : String := "c" ++ toString c.index

end FiniteDomain
