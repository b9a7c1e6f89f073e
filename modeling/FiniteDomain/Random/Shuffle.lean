import FiniteDomain.Random.Generator
/-!
# Shuffling

From the last position down to the second, each item changes places with one at or before it.
The result is a permutation, whatever is drawn.
-/
namespace FiniteDomain
variable {α : Type}

/-- Exchanges the items at two positions, if both exist. -/
def exchange (as : Array α) (i j : Nat) : Array α := as.swapIfInBounds i j

/-- Shuffles the items up to position `i`. -/
def shuffleTo : (i : Nat) → Array α → Generator → Array α × Generator
  | 0, as, g => (as, g)
  | i + 1, as, g =>
    let (j, g) := g.below (i + 2)
    shuffleTo i (exchange as (i + 1) j) g

def shuffle (as : List α) (g : Generator) : List α × Generator :=
  let (shuffled, g) := shuffleTo (as.length - 1) as.toArray g
  (shuffled.toList, g)

theorem exchange_perm (as : Array α) (i j : Nat) : (exchange as i j).Perm as := by
  unfold exchange Array.swapIfInBounds
  split
  · split
    · exact Array.swap_perm _ _
    · exact .rfl
  · exact .rfl

theorem shuffleTo_perm (i : Nat) (as : Array α) (g : Generator) : (shuffleTo i as g).1.Perm as := by
  induction i generalizing as g with
  | zero => exact .rfl
  | succ i ih => exact (ih _ _).trans (exchange_perm _ _ _)

theorem shuffle_perm (as : List α) (g : Generator) : (shuffle as g).1.Perm as :=
  Array.perm_iff_toList_perm.mp (shuffleTo_perm _ as.toArray g)

end FiniteDomain
