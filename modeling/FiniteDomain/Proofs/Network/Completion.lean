import FiniteDomain.Network.Basic
import FiniteDomain.Proofs.Network.WellFormed
/-!
# Completions

A solution of a network satisfies every constraint. A completion is a solution that takes current
values and agrees with what is assigned: the solutions that a search below this state can find.
-/
namespace FiniteDomain

/-- The values along the scope are a satisfying tuple. -/
def Constraint.SatisfiedBy (c : Constraint) (value : VariableId → Option Int) : Prop :=
  ∃ t ∈ c.tuples, List.Forall₂ (fun x a => value x = some a) c.scope t

namespace Network

/-- The solution has a value for each variable and satisfies every constraint. -/
structure SolvedBy (net : Network) (s : Solution) : Prop where
  size_eq : s.size = net.numVariables
  satisfied : ∀ {id c}, net.constraints.get? id = some c → c.SatisfiedBy s.get?

/-- Each value of the solution is in the current domain of its variable. -/
def Offers (net : Network) (s : Solution) : Prop := ∀ {x a}, s.get? x = some a → net.Has x a

/-- A solution by current values that agrees with the assigned ones. -/
structure CompletedBy (net : Network) (s : Solution) : Prop extends net.SolvedBy s where
  offers : net.Offers s
  agrees : ∀ {x a}, net.assigned x = some a → s.get? x = some a

variable {net : Network} {s : Solution} {c : Constraint} {x : VariableId} {a b : Int}

theorem CompletedBy.eq_assigned (h : net.CompletedBy s) (hx : net.assigned x = some a)
    (hs : s.get? x = some b) : b = a :=
  Option.some.inj (hs.symm.trans (h.agrees hx))

theorem completedBy_iff_of_free (h : net.Free) :
    net.CompletedBy s ↔ net.SolvedBy s ∧ net.Offers s := by
  constructor
  · intro hs
    exact ⟨hs.toSolvedBy, hs.offers⟩
  · intro h
    obtain ⟨hs, ho⟩ := h
    refine ⟨hs, ho, fun hx => ?_⟩
    rw [h] at hx
    cases hx

theorem get?_of_knows (hs : s.size = net.numVariables) (hx : net.Knows x) :
    ∃ a, s.get? x = some a := by
  obtain ⟨v, hv⟩ := hx
  exact Store.get?_of_lt_size (Nat.lt_of_lt_of_eq (Store.lt_size_of_get? hv) hs.symm)

theorem SolvedBy.knows (h : net.SolvedBy s) (hs : s.get? x = some a) : net.Knows x :=
  Store.get?_of_lt_size (Nat.lt_of_lt_of_eq (Store.lt_size_of_get? hs) h.size_eq)

private theorem satisfies_eq_ok_true : satisfies s c = .ok true ↔ c.SatisfiedBy s.get? := by
  rw [satisfies, bind_eq_ok]
  simp only [mapM_eq_ok, Store.fetch_eq_ok_iff, pure, Except.pure, Except.ok.injEq]
  constructor
  · intro h
    obtain ⟨t, ht, hc⟩ := h
    exact ⟨t, hc, ht⟩
  · intro h
    obtain ⟨t, hc, ht⟩ := h
    exact ⟨t, ht, hc⟩

private theorem satisfiesAll_eq_ok_true {cs : List Constraint} :
    satisfiesAll s cs = .ok true ↔ ∀ c ∈ cs, c.SatisfiedBy s.get? := by
  induction cs with
  | nil => simp [satisfiesAll]
  | cons c cs ih =>
    rw [satisfiesAll, bind_eq_ok, List.forall_mem_cons, ← satisfies_eq_ok_true, ← ih]
    constructor
    · intro h
      obtain ⟨b, hb, hrest⟩ := h
      cases b with
      | true => exact ⟨hb, hrest⟩
      | false => cases hrest
    · intro h
      obtain ⟨hb, hrest⟩ := h
      exact ⟨true, hb, hrest⟩

theorem isSolution_eq_ok_true : net.isSolution s = .ok true ↔ net.SolvedBy s := by
  rw [isSolution]
  by_cases hs : s.size = net.numVariables
  · rw [if_pos hs, satisfiesAll_eq_ok_true]
    constructor
    · intro h
      exact ⟨hs, fun {id c} hc => h c (Store.mem_toList.mpr ⟨id, hc⟩)⟩
    · intro h c hc
      obtain ⟨id, hid⟩ := Store.mem_toList.mp hc
      exact h.satisfied hid
  · rw [if_neg hs]
    constructor
    · intro h
      cases h
    · intro h
      exact absurd h.size_eq hs

end Network

end FiniteDomain
