import FiniteDomain.Proofs.Search.Audit
import FiniteDomain.Proofs.Search.Trail
/-!
# The balance of the counters

Every decision opens a branch, which a dead end, a solution or the end of a variable's values closes.
So however a run ends, it has closed at most one branch more than it has opened, and just as many if
it has explored everything.
-/
namespace FiniteDomain

def total (worth : Move → Nat) (steps : List Step) : Nat :=
  (steps.map fun step => worth step.move).sum

namespace Move

def deadEnds : Move → Nat
  | decision _ _ .consistent => 0
  | decision _ _ (.inconsistent _) => 1
  | root _ => 0
  | solution _ => 0
  | backtrack => 0

def solutions : Move → Nat
  | solution _ => 1
  | root _ => 0
  | decision _ _ _ => 0
  | backtrack => 0

def backtracks : Move → Nat
  | backtrack => 1
  | root _ => 0
  | decision _ _ _ => 0
  | solution _ => 0

def calls : Move → Nat
  | root _ => 1
  | decision _ _ _ => 1
  | solution _ => 0
  | backtrack => 0

def closings (move : Move) : Nat := move.backtracks + move.deadEnds + move.solutions

end Move

/-- The steps close one branch more than they open, and no first part of them closes more. -/
structure Balanced (steps : List Step) : Prop where
  whole : total Move.closings steps = total Move.decisions steps + 1
  part : ∀ pre, pre <+: steps → total Move.closings pre ≤ total Move.decisions pre + 1

variable {options : Options} {goal : Goal} {depth n : Nat} {net : Network} {g g' : Progress}
  {step : Step} {steps rest pre below : List Step} {worth worth' : Move → Nat}

@[simp] theorem total_nil : total worth [] = 0 := rfl

@[simp] theorem total_cons : total worth (step :: steps) = worth step.move + total worth steps :=
  List.sum_cons

@[simp] theorem total_append : total worth (steps ++ rest) = total worth steps + total worth rest := by
  simp [total]

theorem total_congr (h : ∀ step ∈ steps, worth step.move = worth' step.move) :
    total worth steps = total worth' steps := by
  induction steps with
  | nil => rfl
  | cons step steps ih =>
    rw [total_cons, total_cons, h step List.mem_cons_self,
      ih fun step hstep => h step (List.mem_cons_of_mem _ hstep)]

theorem total_closings : total Move.closings steps =
    total Move.backtracks steps + total Move.deadEnds steps + total Move.solutions steps := by
  induction steps with
  | nil => rfl
  | cons step steps ih =>
    simp only [total_cons, ih, Move.closings]
    omega

theorem total_solutions (steps : List Step) :
    total Move.solutions steps = (solutionsOf steps).length := by
  induction steps with
  | nil => rfl
  | cons step steps ih =>
    obtain ⟨move, network, after⟩ := step
    cases move <;> simp [solutionsOf, Move.solutions, ih, Nat.add_comm]

namespace Counters

theorem tallies_deadEnds : Tallies deadEnds Move.deadEnds where
  propagated _ _ _ := rfl
  expanded _ _ _ := rfl
  decided g net name x a outcome := by
    cases hstatus : outcome.status with
    | consistent => rw [Progress.decided, hstatus]; rfl
    | inconsistent why => rw [Progress.decided, hstatus]; rfl
  reported _ _ _ := rfl
  usedUp _ := rfl

theorem tallies_backtracks : Tallies backtracks Move.backtracks where
  propagated _ _ _ := rfl
  expanded _ _ _ := rfl
  decided g net name x a outcome := by
    unfold Progress.decided
    split <;> rfl
  reported _ _ _ := rfl
  usedUp _ := rfl

theorem tallies_solutions : Tallies solutions Move.solutions where
  propagated _ _ _ := rfl
  expanded _ _ _ := rfl
  decided g net name x a outcome := by
    unfold Progress.decided
    split <;> rfl
  reported _ _ _ := rfl
  usedUp _ := rfl

theorem tallies_calls : Tallies propagatorCalls Move.calls where
  propagated _ _ _ := rfl
  expanded _ _ _ := rfl
  decided g net name x a outcome := by
    unfold Progress.decided
    split <;> rfl
  reported _ _ _ := rfl
  usedUp _ := rfl

end Counters

namespace Balanced

theorem of_closing (hclosings : step.move.closings = 1) (hdecisions : step.move.decisions = 0) :
    Balanced [step] where
  whole := by simp [hclosings, hdecisions]
  part pre hpre := by
    rcases List.prefix_cons_iff.mp hpre with rfl | ⟨rest, rfl, hrest⟩
    · simp
    · obtain rfl := List.prefix_nil.mp hrest
      simp [hclosings, hdecisions]

theorem cons (hclosings : step.move.closings = 1) (hdecisions : step.move.decisions = 1)
    (h : Balanced steps) : Balanced (step :: steps) where
  whole := by
    have := h.whole
    simp only [total_cons, hclosings, hdecisions]
    omega
  part pre hpre := by
    rcases List.prefix_cons_iff.mp hpre with rfl | ⟨rest, rfl, hrest⟩
    · simp
    · have := h.part rest hrest
      simp only [total_cons, hclosings, hdecisions]
      omega

theorem branch (hclosings : step.move.closings = 0) (hdecisions : step.move.decisions = 1)
    (hbelow : Balanced below) (h : Balanced steps) : Balanced (step :: (below ++ steps)) where
  whole := by
    have hwhole := hbelow.whole
    have hwhole' := h.whole
    simp only [total_cons, total_append, hclosings, hdecisions]
    omega
  part pre hpre := by
    rcases List.prefix_cons_iff.mp hpre with rfl | ⟨pre, rfl, hafter⟩
    · simp
    · simp only [total_cons, hclosings, hdecisions]
      rcases List.prefix_or_prefix_of_prefix hafter (List.prefix_append below steps) with
        hin | ⟨rest, rfl⟩
      · have := hbelow.part pre hin
        omega
      · have hwhole := hbelow.whole
        have hpart := h.part rest ((List.prefix_append_right_inj below).mp hafter)
        simp only [total_append]
        omega

end Balanced

theorem Explores.balanced (h : Explores options goal depth net g steps g') : Balanced steps := by
  induction h with
  | leaf => exact .of_closing rfl rfl
  | node _ _ _ _ ih => exact ih
  | usedUp => exact .of_closing rfl rfl
  | @deadEnd x a rest depth net g g' name outcome steps _ hstatus _ ih =>
    refine .cons ?_ rfl ih
    cases hwhy : outcome.status with
    | consistent => exact absurd hwhy hstatus
    | inconsistent why => rfl
  | @descend x a rest depth net g g₁ g' name outcome below steps _ hstatus _ _ ihBelow ihRest =>
    refine .branch ?_ rfl ihBelow ihRest
    rw [hstatus]
    rfl

/-- Below the root, the propagator is called once for each decision. -/
theorem Explores.calls_eq (h : Explores options goal depth net g steps g') :
    ∀ step ∈ steps, step.move.calls = step.move.decisions := by
  induction h with
  | leaf => exact List.forall_mem_singleton.mpr rfl
  | node _ _ _ _ ih => exact ih
  | usedUp => exact List.forall_mem_singleton.mpr rfl
  | deadEnd _ _ _ ih => exact List.forall_mem_cons.mpr ⟨rfl, ih⟩
  | descend _ _ _ _ ihBelow ihRest =>
    exact List.forall_mem_cons.mpr ⟨rfl, List.forall_mem_append.mpr ⟨ihBelow, ihRest⟩⟩

theorem Progress.finish_of_forall {P : Progress → Prop} (hstart : P g)
    (h : ∀ step ∈ steps, P step.after) : P (g.finish steps) := by
  induction steps generalizing g with
  | nil => exact hstart
  | cons step steps ih =>
    obtain ⟨hstep, hsteps⟩ := List.forall_mem_cons.mp h
    exact ih hstep hsteps

theorem Progress.peakDepth_decided {name : String} {x : VariableId} {a : Int} {outcome : Outcome} :
    (g.decided net name x a outcome).counters.peakDepth = g.counters.peakDepth := by
  unfold decided
  split <;> rfl

theorem Explores.peakDepth_le (h : Explores options goal depth net g steps g')
    (hpeak : g.counters.peakDepth ≤ n) (hdepth : depth + net.unassigned.length ≤ n) :
    ∀ step ∈ steps, step.after.counters.peakDepth ≤ n := by
  induction h with
  | leaf => exact List.forall_mem_singleton.mpr hpeak
  | @node depth net g g' x v values generator steps hselect _ _ _ ih =>
    have hpos := List.length_pos_of_mem (VariableSelection.mem_of_select hselect)
    refine ih ?_ hdepth
    exact Nat.max_le.mpr ⟨hpeak, by omega⟩
  | usedUp => exact List.forall_mem_singleton.mpr hpeak
  | deadEnd _ _ _ ih =>
    rw [← Progress.peakDepth_decided] at hpeak
    exact List.forall_mem_cons.mpr ⟨hpeak, ih hpeak hdepth⟩
  | @descend x a rest depth net g g₁ g' name outcome below steps hdecides _ hbelow _ ihBelow ihRest =>
    have hcount : (net.deciding x a outcome).unassigned.length + 1 = net.unassigned.length :=
      Network.length_unassigned_deciding hdecides.current.knows hdecides.free
    have hdecided : (g.decided net name x a outcome).counters.peakDepth ≤ n := by
      rwa [Progress.peakDepth_decided]
    have hsteps := ihBelow hdecided (by omega)
    have hbetween : g₁.counters.peakDepth ≤ n := by
      rw [← hbelow.finish_eq (g.decided net name x a outcome)]
      exact Progress.finish_of_forall (P := fun g => g.counters.peakDepth ≤ n) hdecided hsteps
    exact List.forall_mem_cons.mpr
      ⟨hdecided, List.forall_mem_append.mpr ⟨hsteps, ihRest hbetween hdepth⟩⟩

/-- What a run adds to the counters that concern the branches of its search. -/
structure Solver.Balances {τ : Type} (solver : Solver) (detail : Option Level) (run : Run τ) :
    Prop where
  explored : ¬solver.RootFails detail → ∃ decisions deadEnds backtracks solutions,
    run.solver.counters.decisions = solver.counters.decisions + decisions ∧
    run.solver.counters.deadEnds = solver.counters.deadEnds + deadEnds ∧
    run.solver.counters.backtracks = solver.counters.backtracks + backtracks ∧
    run.solver.counters.solutions = solver.counters.solutions + solutions ∧
    backtracks + deadEnds + solutions ≤ decisions + 1 ∧
    (run.ending = .exhausted → backtracks + deadEnds + solutions = decisions + 1)
  failed : solver.RootFails detail →
    run.solver.counters.decisions = solver.counters.decisions ∧
    run.solver.counters.deadEnds = solver.counters.deadEnds ∧
    run.solver.counters.backtracks = solver.counters.backtracks ∧
    run.solver.counters.solutions = solver.counters.solutions

namespace Searches

variable {τ : Type} [Termination τ] {solver : Solver} {detail : Option Level}

/-- After the root, a run makes a first part of the steps below it. -/
theorem exists_rest {status : Status} {after : Progress} (condition : τ) (wanted : Option Nat) :
    ∃ rest, (play (⟨.root status, net, after⟩ :: below) condition wanted).made =
        ⟨.root status, net, after⟩ :: rest ∧ rest <+: below := by
  obtain ⟨rest, hmade⟩ := exists_made_eq_cons ⟨.root status, net, after⟩ below condition wanted
  have hpre := isPrefix_made (⟨.root status, net, after⟩ :: below) condition wanted
  rw [hmade] at hpre
  exact ⟨rest, hmade, (List.prefix_cons_inj _).mp hpre⟩

theorem balances (h : Searches options solver.network (solver.progress detail) steps g')
    (condition : τ) (wanted : Option Nat) :
    solver.Balances detail (solver.played detail (play steps condition wanted)) where
  explored hroot := by
    obtain ⟨outcome, below, hexplored, hsteps⟩ := h.exists_explores hroot
    have hpart : total Move.closings (play steps condition wanted).made ≤
        total Move.decisions (play steps condition wanted).made + 1 := by
      obtain ⟨rest, hmade, hrest⟩ := exists_rest condition wanted
      rw [hsteps, hmade, total_cons, total_cons]
      exact Nat.add_le_add_left (hexplored.balanced.part rest hrest) 0
    have hwhole (hend : (play steps condition wanted).ending = .exhausted) :
        total Move.closings (play steps condition wanted).made =
          total Move.decisions (play steps condition wanted).made + 1 := by
      rw [made_eq_of_exhausted hend, hsteps, total_cons, total_cons]
      exact congrArg (0 + ·) hexplored.balanced.whole
    rw [total_closings] at hpart hwhole
    exact ⟨_, _, _, _, h.counter_played Counters.tallies_decisions condition wanted,
      h.counter_played Counters.tallies_deadEnds condition wanted,
      h.counter_played Counters.tallies_backtracks condition wanted,
      h.counter_played Counters.tallies_solutions condition wanted, hpart, hwhole⟩
  failed hroot := by
    obtain ⟨status, network, hplay⟩ := h.play_of_rootFails hroot condition wanted
    have hadds {counter : Counters → Nat} {worth : Move → Nat}
        (hcounter : Counters.Tallies counter worth) (hnone : worth (.root status) = 0) :
        counter (solver.played detail (play steps condition wanted)).solver.counters =
          counter solver.counters := by
      rw [h.counter_played hcounter, hplay, List.map_singleton, List.sum_singleton, hnone,
        Nat.add_zero]
    exact ⟨hadds Counters.tallies_decisions rfl, hadds Counters.tallies_deadEnds rfl,
      hadds Counters.tallies_backtracks rfl, hadds Counters.tallies_solutions rfl⟩

theorem total_calls (h : Searches options net g steps g') (condition : τ) (wanted : Option Nat) :
    total Move.calls (play steps condition wanted).made =
      total Move.decisions (play steps condition wanted).made + 1 := by
  have hsteps : ∃ status network after below, steps = ⟨.root status, network, after⟩ :: below ∧
      ∀ step ∈ below, step.move.calls = step.move.decisions := by
    cases h with
    | failed => exact ⟨_, _, _, [], rfl, List.forall_mem_nil _⟩
    | explored _ _ hexplored => exact ⟨_, _, _, _, rfl, hexplored.calls_eq⟩
  obtain ⟨status, network, after, below, rfl, hbelow⟩ := hsteps
  obtain ⟨rest, hmade, hrest⟩ := exists_rest condition wanted
  have hsame : total Move.calls rest = total Move.decisions rest :=
    total_congr fun step hstep => hbelow step (hrest.subset hstep)
  rw [hmade, total_cons, total_cons, hsame]
  simp [Move.calls, Move.decisions, Nat.add_comm]

theorem solutions_counted (h : Searches options net (solver.progress detail) steps g')
    (condition : τ) (wanted : Option Nat) :
    (solver.played detail (play steps condition wanted)).solver.counters.solutions =
      solver.counters.solutions +
        (solver.played detail (play steps condition wanted)).journal.solutions.length := by
  rw [h.solutions_played, ← total_solutions]
  exact h.counter_played Counters.tallies_solutions condition wanted

theorem peakDepth_played (h : Searches options net (solver.progress detail) steps g')
    (hpeak : solver.counters.peakDepth ≤ net.unassigned.length) (condition : τ)
    (wanted : Option Nat) :
    (solver.played detail (play steps condition wanted)).solver.counters.peakDepth ≤
      net.unassigned.length := by
  have hsteps : ∀ step ∈ steps, step.after.counters.peakDepth ≤ net.unassigned.length := by
    cases h with
    | failed => exact List.forall_mem_singleton.mpr hpeak
    | @explored outcome below g' _ _ hexplored =>
      have hdepth : 0 + (net.without outcome.removed).unassigned.length ≤ net.unassigned.length := by
        rw [Network.unassigned_without, Nat.zero_add]
      exact List.forall_mem_cons.mpr ⟨hpeak, hexplored.peakDepth_le hpeak hdepth⟩
  have hpre := isPrefix_made steps condition wanted
  exact Progress.finish_of_forall (g := solver.progress detail)
    (P := fun g => g.counters.peakDepth ≤ net.unassigned.length) hpeak
    fun step hstep => hsteps step (hpre.subset hstep)

end Searches

end FiniteDomain
