import FiniteDomain.Proofs.Search.Limit
/-!
# Trails

The decisions and the solutions of a search in order, apart from what the propagator does in
between. They say how many decisions a run has made, wherever its limit ends it.
-/
namespace FiniteDomain

inductive Mark where
  | decided (x : VariableId) (a : Int)
  | found (s : Solution)

namespace Mark

def isDecision : Mark → Bool
  | decided _ _ => true
  | found _ => false

def solution? : Mark → Option Solution
  | decided _ _ => none
  | found s => some s

def upTo : Nat → List Mark → List Mark
  | 0, _ => []
  | _ + 1, [] => []
  | n + 1, decided x a :: marks => decided x a :: upTo (n + 1) marks
  | n + 1, found s :: marks => found s :: upTo n marks

end Mark

def Move.mark : Move → Option Mark
  | root _ => none
  | decision x a _ => some (.decided x a)
  | solution s => some (.found s)
  | backtrack => none

def trail (steps : List Step) : List Mark := steps.filterMap fun step => step.move.mark

/-- Each step adds to the counter what its move is worth. -/
def Progress.Adds (g : Progress) (counter : Counters → Nat) (worth : Move → Nat) :
    List Step → Prop
  | [] => True
  | step :: steps => counter step.after.counters = counter g.counters + worth step.move ∧
      step.after.Adds counter worth steps

/-- The counter grows with the moves alone, each time by what the move is worth. -/
structure Counters.Tallies (counter : Counters → Nat) (worth : Move → Nat) : Prop where
  propagated : ∀ (g : Progress) net outcome, counter (g.propagated none net outcome).counters =
    counter g.counters + worth (.root outcome.status)
  expanded : ∀ (g : Progress) depth generator,
    counter (g.expanded depth generator).counters = counter g.counters
  decided : ∀ (g : Progress) net name x a outcome,
    counter (g.decided net name x a outcome).counters =
      counter g.counters + worth (.decision x a outcome.status)
  reported : ∀ (g : Progress) depth s,
    counter (g.reported depth s).counters = counter g.counters + worth (.solution s)
  usedUp : ∀ g : Progress, counter g.usedUp.counters = counter g.counters + worth .backtrack

def Move.decisions : Move → Nat
  | decision _ _ _ => 1
  | root _ => 0
  | solution _ => 0
  | backtrack => 0

variable {τ : Type} [Termination τ] {unending : τ} {options : Options} {goal : Goal} {depth : Nat}
  {net : Network} {g g' : Progress} {steps rest pre : List Step} {marks marks' : List Mark}
  {x : VariableId} {a : Int} {name : String} {outcome : Outcome} {counter : Counters → Nat}
  {worth : Move → Nat}

theorem Mark.upTo_zero (marks : List Mark) : upTo 0 marks = [] := by
  cases marks <;> rfl

theorem trail_append : trail (steps ++ rest) = trail steps ++ trail rest := List.filterMap_append

theorem trail_root (status : Status) (net : Network) (g : Progress) (steps : List Step) :
    trail (⟨.root status, net, g⟩ :: steps) = trail steps :=
  rfl

theorem trail_decision (x : VariableId) (a : Int) (status : Status) (net : Network) (g : Progress)
    (steps : List Step) : trail (⟨.decision x a status, net, g⟩ :: steps) = .decided x a :: trail steps :=
  rfl

theorem solutionsOf_eq_filterMap (steps : List Step) :
    solutionsOf steps = (trail steps).filterMap Mark.solution? := by
  induction steps with
  | nil => rfl
  | cons step steps ih =>
    obtain ⟨move, network, after⟩ := step
    cases move with
    | solution s => exact congrArg (s :: ·) ih
    | root | decision | backtrack => exact ih

/-- A run up to a number of solutions makes the decisions before the last of them. -/
theorem trail_play (h : Termination.NeverStops unending) (steps : List Step) (limit : Nat) :
    trail (play steps unending (some (limit + 1))).made = Mark.upTo (limit + 1) (trail steps) := by
  induction steps generalizing unending limit with
  | nil => rfl
  | cons step steps ih =>
    by_cases hnone : solutionsOf [step] = []
    · obtain ⟨unending', hreact, hnever⟩ := Move.react_of_no_solution h hnone (some (limit + 1))
      rw [play_cons_of_none hreact]
      obtain ⟨move, network, after⟩ := step
      cases move with
      | decision x a status => exact congrArg (Mark.decided x a :: ·) (ih hnever limit)
      | solution s => cases hnone
      | root | backtrack => exact ih hnever limit
    · obtain ⟨move, network, after⟩ := step
      cases move with
      | solution s =>
        cases limit with
        | zero =>
          have hreact : (Move.solution s).react unending (some 1) =
              (some .interrupted, unending, some 0) := rfl
          rw [play_cons_of_some hreact]
          exact (congrArg (Mark.found s :: ·) (Mark.upTo_zero _)).symm
        | succ limit =>
          have hreact : (Move.solution s).react unending (some (limit + 1 + 1)) =
              (none, unending, some (limit + 1)) := by
            simp [Move.react]
          rw [play_cons_of_none hreact]
          exact congrArg (Mark.found s :: ·) (ih h limit)
      | root | decision | backtrack => exact absurd rfl hnone

theorem Mark.upTo_sublist (h : marks.Sublist marks')
    (hsame : marks.filterMap solution? = marks'.filterMap solution?) (n : Nat) :
    (upTo n marks).Sublist (upTo n marks') := by
  induction h generalizing n with
  | slnil => exact .refl _
  | @cons marks marks' mark hsub ih =>
    cases n with
    | zero => rw [upTo_zero, upTo_zero]
    | succ n =>
      cases mark with
      | decided x a => exact (ih hsame (n + 1)).cons _
      | found s =>
        -- A solution that only the second trail had would make its solutions more.
        have hmore : (found s :: marks').filterMap solution? = s :: marks'.filterMap solution? := rfl
        have hle := (hsub.filterMap solution?).length_le
        rw [hsame, hmore, List.length_cons] at hle
        omega
  | @cons_cons marks marks' mark _ ih =>
    cases n with
    | zero => rw [upTo_zero, upTo_zero]
    | succ n =>
      cases mark with
      | decided x a => exact (ih hsame (n + 1)).cons_cons _
      | found s => exact (ih (List.cons.inj hsame).2 n).cons_cons _

namespace Progress

theorem adds_append : g.Adds counter worth (steps ++ rest) ↔
    g.Adds counter worth steps ∧ (g.finish steps).Adds counter worth rest := by
  induction steps generalizing g with
  | nil => exact (iff_of_eq (true_and _)).symm
  | cons step steps ih =>
    rw [List.cons_append, Adds, Adds, ih, and_assoc]
    exact Iff.rfl

theorem Adds.congr (h : g.Adds counter worth steps) (hsame : counter g'.counters = counter g.counters) :
    g'.Adds counter worth steps := by
  cases steps with
  | nil => trivial
  | cons step steps => exact ⟨by rw [hsame, h.1], h.2⟩

theorem Adds.finish (h : g.Adds counter worth steps) :
    counter (g.finish steps).counters =
      counter g.counters + (steps.map fun step => worth step.move).sum := by
  induction steps generalizing g with
  | nil => rfl
  | cons step steps ih => rw [List.map_cons, List.sum_cons, ← Nat.add_assoc, ← h.1, ← ih h.2]; rfl

theorem Adds.of_isPrefix (h : g.Adds counter worth steps) (hpre : pre <+: steps) :
    g.Adds counter worth pre := by
  obtain ⟨rest, rfl⟩ := hpre
  exact (adds_append.mp h).1

end Progress

theorem Explores.adds (hcounter : Counters.Tallies counter worth)
    (h : Explores options goal depth net g steps g') : g.Adds counter worth steps := by
  induction h with
  | @leaf depth net g s => exact ⟨hcounter.reported g depth s, trivial⟩
  | @node depth net g g' x v values generator steps _ _ _ _ ih =>
    exact ih.congr (hcounter.expanded g depth generator).symm
  | @usedUp x depth net g => exact ⟨hcounter.usedUp g, trivial⟩
  | @deadEnd x a rest depth net g g' name outcome steps _ _ _ ih =>
    exact ⟨hcounter.decided g net name x a outcome, ih⟩
  | @descend x a rest depth net g g₁ g' name outcome below steps _ _ hbelow _ ihBelow ihRest =>
    refine ⟨hcounter.decided g net name x a outcome, Progress.adds_append.mpr ⟨ihBelow, ?_⟩⟩
    rw [hbelow.finish_eq]
    exact ihRest

theorem Searches.adds (hcounter : Counters.Tallies counter worth)
    (h : Searches options net g steps g') : g.Adds counter worth steps := by
  cases h with
  | @failed outcome => exact ⟨hcounter.propagated g net outcome, trivial⟩
  | @explored outcome steps g' _ _ hexplored =>
    exact ⟨hcounter.propagated g net outcome, hexplored.adds hcounter⟩

theorem Counters.tallies_decisions : Tallies decisions Move.decisions where
  propagated _ _ _ := rfl
  expanded _ _ _ := rfl
  decided g net name x a outcome := by
    unfold Progress.decided
    split <;> rfl
  reported _ _ _ := rfl
  usedUp _ := rfl

theorem sum_decisions (steps : List Step) :
    (steps.map fun step => step.move.decisions).sum = (trail steps).countP Mark.isDecision := by
  induction steps with
  | nil => rfl
  | cons step steps ih =>
    obtain ⟨move, network, after⟩ := step
    rw [List.map_cons, List.sum_cons, ih, Nat.add_comm]
    cases move with
    | decision x a status =>
      have hmark : Mark.isDecision (.decided x a) = true := rfl
      exact (List.countP_cons_of_pos hmark).symm
    | solution s =>
      have hmark : ¬Mark.isDecision (.found s) = true := Bool.false_ne_true
      exact (List.countP_cons_of_neg hmark).symm
    | root | backtrack => rfl

theorem Searches.counter_played {solver : Solver} {detail : Option Level}
    (hcounter : Counters.Tallies counter worth)
    (h : Searches options net (solver.progress detail) steps g') (condition : τ)
    (wanted : Option Nat) :
    counter (solver.played detail (play steps condition wanted)).solver.counters =
      counter solver.counters +
        ((play steps condition wanted).made.map fun step => worth step.move).sum :=
  ((h.adds hcounter).of_isPrefix (isPrefix_made steps condition wanted)).finish

theorem Searches.decisions_played {solver : Solver} {detail : Option Level}
    (h : Searches options net (solver.progress detail) steps g') (condition : τ)
    (wanted : Option Nat) :
    (solver.played detail (play steps condition wanted)).solver.counters.decisions =
      solver.counters.decisions +
        (trail (play steps condition wanted).made).countP Mark.isDecision := by
  rw [← sum_decisions]
  exact h.counter_played Counters.tallies_decisions condition wanted

end FiniteDomain
