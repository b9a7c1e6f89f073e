import FiniteDomain.Proofs.Search.Report
/-!
# Conditions that never stop

The steps of a search do not depend on the condition, only how far a run gets. A condition that
never stops leaves nothing but the number of wanted solutions to end a run.
-/
namespace FiniteDomain

variable {τ τ' : Type} [Termination τ] [Termination τ'] {condition : τ} {unending : τ'}

namespace Termination

/-- The condition answers no, whatever decisions it is told of before each question. -/
def NeverStops (condition : τ) : Prop := ∀ made, true ∉ answers condition made

theorem NeverStops.answer (h : NeverStops condition) (made : Nat) :
    (shouldStop (Nat.repeat decisionMade made condition)).1 = false ∧
      NeverStops (shouldStop (Nat.repeat decisionMade made condition)).2 := by
  constructor
  · have hnot : true ∉ [(shouldStop (Nat.repeat decisionMade made condition)).1] := h [made]
    exact Bool.eq_false_iff.mpr fun htrue => hnot (List.mem_singleton.mpr htrue.symm)
  · intro rest hmem
    apply h (made :: rest)
    rw [answers]
    exact List.mem_cons_of_mem _ hmem

end Termination

theorem Condition.neverStops_never : Termination.NeverStops never := by
  have htold (made : Nat) : Nat.repeat Termination.decisionMade made never = never := by
    induction made with
    | zero => rfl
    | succ made ih =>
      rw [Nat.repeat, ih]
      rfl
  intro made
  induction made with
  | nil => exact List.not_mem_nil
  | cons n rest ih =>
    rw [Termination.answers, htold]
    intro h
    rcases h with _ | ⟨_, hmem⟩
    exact ih hmem

open Termination

theorem ask_of_neverStops (h : NeverStops condition) (wanted : Option Nat) :
    (ask condition wanted).1 = none ∧ NeverStops (ask condition wanted).2.1 := by
  obtain ⟨hno, hnever⟩ := h.answer 0
  have hnot : ¬(shouldStop condition).1 = true := Bool.eq_false_iff.mp hno
  exact ⟨if_neg hnot, hnever⟩

/-- Where another condition goes on after a move, a condition that never stops does so too, and
both want as many solutions from there on. -/
theorem Move.react_of_neverStops (h : NeverStops unending) (move : Move) (condition : τ)
    (wanted : Option Nat) :
    NeverStops (move.react unending wanted).2.1 ∧
      (move.react unending wanted).2.2 = (move.react condition wanted).2.2 ∧
      ((move.react condition wanted).1 = none → (move.react unending wanted).1 = none) := by
  have hask := ask_of_neverStops h wanted
  cases move with
  | root status =>
    by_cases hstatus : status.isConsistent = true
    · rw [react, if_pos hstatus, react, if_pos hstatus]
      exact ⟨hask.2, rfl, fun _ => hask.1⟩
    · rw [react, if_neg hstatus, react, if_neg hstatus]
      exact ⟨h, rfl, id⟩
  | decision x a status =>
    obtain ⟨hno, hnever⟩ := h.answer 1
    have hnot : ¬(shouldStop (decisionMade unending)).1 = true := Bool.eq_false_iff.mp hno
    exact ⟨hnever, rfl, fun _ => if_neg hnot⟩
  | solution s => exact ⟨h, rfl, id⟩
  | backtrack => exact ⟨hask.2, rfl, fun _ => hask.1⟩

theorem Move.react_of_neverStops_none (h : NeverStops unending) (move : Move) :
    (move.react unending none).1 = none ∧ (move.react unending none).2.2 = none := by
  have hask := ask_of_neverStops h none
  cases move with
  | root status =>
    by_cases hstatus : status.isConsistent = true
    · rw [react, if_pos hstatus]
      exact ⟨hask.1, rfl⟩
    · rw [react, if_neg hstatus]
      exact ⟨rfl, rfl⟩
  | decision x a status =>
    have hnot : ¬(shouldStop (decisionMade unending)).1 = true :=
      Bool.eq_false_iff.mp (h.answer 1).1
    exact ⟨if_neg hnot, rfl⟩
  | solution s => exact ⟨rfl, rfl⟩
  | backtrack => exact ⟨hask.1, rfl⟩

/-- A condition that never stops gets at least as far as any other. -/
theorem isPrefix_made_of_neverStops (h : NeverStops unending) (steps : List Step) (condition : τ)
    (wanted : Option Nat) :
    (play steps condition wanted).made <+: (play steps unending wanted).made := by
  induction steps generalizing condition unending wanted with
  | nil => exact List.prefix_rfl
  | cons step steps ih =>
    obtain ⟨hnever, hwanted, hon⟩ := step.move.react_of_neverStops h condition wanted
    rcases hreact : step.move.react condition wanted with ⟨ending?, condition', wanted'⟩
    rcases hreact' : step.move.react unending wanted with ⟨ending?', unending', wanted''⟩
    rw [hreact, hreact'] at hwanted hon
    rw [hreact'] at hnever
    obtain rfl : wanted'' = wanted' := hwanted
    cases ending? with
    | some ending =>
      obtain ⟨rest, hmade⟩ := exists_made_eq_cons step steps unending wanted
      rw [play_cons_of_some hreact, hmade]
      exact ⟨rest, rfl⟩
    | none =>
      obtain rfl : ending?' = none := hon rfl
      rw [play_cons_of_none hreact, play_cons_of_none hreact']
      exact (List.prefix_cons_inj step).mpr (ih hnever condition' wanted'')

theorem play_eq_of_ne_stopped (h : NeverStops unending) (steps : List Step) {wanted : Option Nat}
    (hend : (play steps condition wanted).ending ≠ .stopped) :
    (play steps unending wanted).made = (play steps condition wanted).made ∧
      (play steps unending wanted).ending = (play steps condition wanted).ending := by
  induction steps generalizing condition unending wanted with
  | nil => exact ⟨rfl, rfl⟩
  | cons step steps ih =>
    obtain ⟨hnever, hwanted, hon⟩ := step.move.react_of_neverStops h condition wanted
    rcases hreact : step.move.react condition wanted with ⟨ending?, condition', wanted'⟩
    rcases hreact' : step.move.react unending wanted with ⟨ending?', unending', wanted''⟩
    rw [hreact, hreact'] at hwanted hon
    rw [hreact'] at hnever
    obtain rfl : wanted'' = wanted' := hwanted
    cases ending? with
    | some ending =>
      rw [play_cons_of_some hreact] at hend ⊢
      obtain ⟨hinterrupted, s, hmove⟩ := (Move.react_eq_some hreact).resolve_left hend
      -- Whether a solution was the last one wanted does not depend on the condition.
      rw [hmove] at hreact hreact'
      obtain rfl : ending?' = some ending :=
        (congrArg Prod.fst hreact').symm.trans (congrArg Prod.fst hreact)
      rw [play_cons_of_some (hmove ▸ hreact')]
      exact ⟨rfl, rfl⟩
    | none =>
      obtain rfl : ending?' = none := hon rfl
      rw [play_cons_of_none hreact] at hend ⊢
      rw [play_cons_of_none hreact']
      obtain ⟨hmade, hending⟩ := ih hnever hend
      exact ⟨congrArg (step :: ·) hmade, hending⟩

theorem ending_eq_exhausted (h : NeverStops unending) (steps : List Step) :
    (play steps unending none).ending = .exhausted := by
  induction steps generalizing unending with
  | nil => rfl
  | cons step steps ih =>
    obtain ⟨hnever, -, -⟩ := step.move.react_of_neverStops h unending none
    obtain ⟨hon, hwanted⟩ := step.move.react_of_neverStops_none h
    rcases hreact : step.move.react unending none with ⟨ending?, unending', wanted'⟩
    rw [hreact] at hnever hon hwanted
    obtain rfl : ending? = none := hon
    obtain rfl : wanted' = none := hwanted
    rw [play_cons_of_none hreact]
    exact ih hnever

theorem solutionsOf_ne_nil_of_interrupted {steps : List Step} {wanted : Option Nat}
    (h : (play steps condition wanted).ending = .interrupted) :
    solutionsOf (play steps condition wanted).made ≠ [] := by
  induction steps generalizing condition wanted with
  | nil => cases h
  | cons step steps ih =>
    rcases hreact : step.move.react condition wanted with ⟨ending?, condition', wanted'⟩
    cases ending? with
    | some ending =>
      rw [play_cons_of_some hreact] at h ⊢
      obtain ⟨move, network, after⟩ := step
      obtain rfl : ending = .interrupted := h
      rcases Move.react_eq_some hreact with hstopped | ⟨-, s, rfl⟩
      · cases hstopped
      · exact List.cons_ne_nil s []
    | none =>
      rw [play_cons_of_none hreact] at h ⊢
      intro hnil
      rw [solutionsOf_cons, List.append_eq_nil_iff] at hnil
      exact ih h hnil.2

end FiniteDomain
