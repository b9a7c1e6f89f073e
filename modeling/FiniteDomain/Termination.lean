/-!
# Termination conditions

A search asks its condition between any two steps whether to stop, and tells it of each decision.
-/
namespace FiniteDomain

/-- What a search asks of a condition; an answer may change the condition. -/
class Termination (τ : Type) where
  shouldStop : τ → Bool × τ
  decisionMade : τ → τ

/-- Without a condition nothing stops. -/
instance {τ : Type} [Termination τ] : Termination (Option τ) where
  shouldStop
    | none => (false, none)
    | some condition =>
      let (stop, condition) := Termination.shouldStop condition
      (stop, some condition)
  decisionMade condition := condition.map Termination.decisionMade

/-- Stops when one of the two does; the second is asked only if the first does not. -/
structure Combined (α β : Type) where
  first : α
  second : β

instance {α β : Type} [Termination α] [Termination β] : Termination (Combined α β) where
  shouldStop c :=
    match Termination.shouldStop c.first with
    | (true, first) => (true, ⟨first, c.second⟩)
    | (false, first) =>
      let (stop, second) := Termination.shouldStop c.second
      (stop, ⟨first, second⟩)
  decisionMade c := ⟨Termination.decisionMade c.first, Termination.decisionMade c.second⟩

theorem Combined.shouldStop_eq {α β : Type} [Termination α] [Termination β] (first : α)
    (second : β) : Termination.shouldStop (mk first second) =
      if (Termination.shouldStop first).1 then (true, ⟨(Termination.shouldStop first).2, second⟩)
      else ((Termination.shouldStop second).1,
        ⟨(Termination.shouldStop first).2, (Termination.shouldStop second).2⟩) := by
  rcases hasked : Termination.shouldStop first with ⟨stop, first'⟩
  cases stop <;> simp [Termination.shouldStop, hasked]

/-- The conditions that callers can put together. -/
inductive Condition where
  | never
  /-- Stops once `budget` decisions were made. -/
  | decisionBudget (budget made : Nat)
  /-- Time does not pass within a run: no seconds are over at once, any other number never. -/
  | timeBudget (seconds : Nat)
  /-- Two conditions combined. -/
  | either (first second : Condition)
deriving DecidableEq, Inhabited

namespace Condition

def decisions (budget : Nat) : Condition := decisionBudget budget 0

/-- Without a condition nothing stops. -/
def ofOption : Option Condition → Condition := (·.getD never)

def shouldStop : Condition → Bool × Condition
  | never => (false, never)
  | decisionBudget budget made => (budget ≤ made, decisionBudget budget made)
  | timeBudget seconds => (seconds = 0, timeBudget seconds)
  | either first second =>
    match first.shouldStop with
    | (true, first) => (true, either first second)
    | (false, first) =>
      let (stop, second) := second.shouldStop
      (stop, either first second)

def decisionMade : Condition → Condition
  | never => never
  | decisionBudget budget made => decisionBudget budget (made + 1)
  | timeBudget seconds => timeBudget seconds
  | either first second => either first.decisionMade second.decisionMade

instance : Termination Condition := ⟨shouldStop, decisionMade⟩

theorem shouldStop_either (first second : Condition) :
    Termination.shouldStop (either first second) =
      if (Termination.shouldStop first).1 then
        (true, either (Termination.shouldStop first).2 second)
      else ((Termination.shouldStop second).1,
        either (Termination.shouldStop first).2 (Termination.shouldStop second).2) := by
  simp only [Termination.shouldStop]
  rcases hasked : first.shouldStop with ⟨stop, first'⟩
  cases stop <;> simp [shouldStop, hasked]

end Condition

/-- The answers of a condition that is told of some decisions before each question. -/
def Termination.answers {τ : Type} [Termination τ] : τ → List Nat → List Bool
  | _, [] => []
  | condition, made :: rest =>
    let (stop, condition) := shouldStop (Nat.repeat decisionMade made condition)
    stop :: answers condition rest

end FiniteDomain
