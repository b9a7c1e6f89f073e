import FiniteDomain.Proofs.Search.Sequence
/-!
# The search as a loop

The open decisions stand on a stack, each with the values its variable has left. A round of the loop
asks the condition, selects a variable or reports a solution if it is to descend, and then takes the
latest decision back for the next one. With enough rounds the loop runs as the recursion does.
-/
namespace FiniteDomain

/-- A variable on the stack. While it is assigned, what the propagation removed is kept. -/
structure Frame where
  var : VariableId
  remaining : List Int
  removed : Option (List Removal)

namespace Search

section
variable {τ π : Type}

def takeBack (frame : Frame) : SearchM τ π PUnit :=
  match frame.removed with
  | none => pure ⟨⟩
  | some removed => undo frame.var removed

def undoAll (frames : List Frame) : SearchM τ π PUnit := frames.forM takeBack

theorem undoAll_cons (frame : Frame) (frames : List Frame) :
    (undoAll (frame :: frames) : SearchM τ π PUnit) =
      takeBack frame >>= fun _ => undoAll frames := by
  rw [undoAll, List.forM_eq_forM, List.forM_cons]
  rfl

theorem undoAll_idle (x : VariableId) (values : List Int) (frames : List Frame) :
    (undoAll (⟨x, values, none⟩ :: frames) : SearchM τ π PUnit) = undoAll frames :=
  undoAll_cons _ _

end

variable {τ π : Type} [Termination τ] [Propagation π]

/-- Makes the next decision on the latest variable, or gives the variable up if no value is left.
The next round is told whether it is to descend. -/
def advance (next : List Frame → Bool → SearchM τ π (Option Ending)) :
    List Frame → SearchM τ π (Option Ending)
  | [] => return some .exhausted
  | frame :: frames => do
    takeBack frame
    match frame.remaining with
    | [] =>
      count fun n => { n with backtracks := n.backtracks + 1 }
      next frames false
    | value :: remaining =>
      let outcome ← makeDecision frame.var value
      next (⟨frame.var, remaining, some outcome.removed⟩ :: frames) outcome.status.isConsistent

/-- Leaves the loop if there is a reason to, and makes the next decision otherwise. -/
def proceed (next : List Frame → Bool → SearchM τ π (Option Ending)) (frames : List Frame) :
    Ending → SearchM τ π (Option Ending)
  | .exhausted => advance next frames
  | ending => do
    undoAll frames
    return some ending

def expand (options : Options) (next : List Frame → Bool → SearchM τ π (Option Ending))
    (frames : List Frame) : SearchM τ π (Option Ending) := do
  match options.variableSelection.select (← get).network with
  | some x =>
    let values ← orderedValues options.valueSelection x
    count fun n => { n with peakDepth := max n.peakDepth (frames.length + 1) }
    advance next (⟨x, values, none⟩ :: frames)
  | none => proceed next frames (← reportSolution frames.length)

def rounds (options : Options) : Nat → List Frame → Bool → SearchM τ π (Option Ending)
  | 0, _, _ => return none
  | n + 1, frames, descend => do
    if ← poll then proceed (rounds options n) frames .stopped
    else if descend then expand options (rounds options n) frames
    else advance (rounds options n) frames

/-- The search from the root with a number of rounds below it. -/
def fromRootWithin (options : Options) (n : Nat) : SearchM τ π (Option Ending) := do
  let root ← propagate none
  let ending? ←
    if root.status.isConsistent then rounds options n [] true
    else
      note (.rootInconsistent root.status)
      pure (some .exhausted)
  match ending? with
  | none => return none
  | some ending =>
    restoreAll root.removed
    note (.searchEnded ending)
    return some ending

end Search

/-- The search by a loop of so many rounds; there is no run if they are not enough. -/
def Solver.searchWithin {τ : Type} [Termination τ] (solver : Solver) (n : Nat) (condition : τ)
    (detail : Option Level) (wanted : Option Nat) : Except Breach (Option (Run τ)) :=
  let start : Search τ Propagator := ⟨solver.network, solver.propagator, solver.generator,
    solver.counters, .empty detail, condition, wanted⟩
  match (Search.fromRootWithin solver.options n).run start with
  | .error b _ => .error b
  | .ok none _ => .ok none
  | .ok (some ending) s =>
    .ok (some ⟨⟨s.network, solver.options, s.propagator, s.generator, s.counters⟩,
      s.condition, s.journal, ending⟩)

def Move.rounds : Move → Nat
  | root _ => 0
  | decision _ _ _ => 1
  | solution _ => 0
  | backtrack => 1

def roundsOf (steps : List Step) : Nat := (steps.map fun step => step.move.rounds).sum

variable {τ : Type} [Termination τ] {options : Options} {goal : Goal} {depth n : Nat}
  {net : Network} {g g' : Progress} {step : Step} {steps rest : List Step} {condition : τ}
  {wanted : Option Nat} {frame : Frame} {frames : List Frame} {x : VariableId} {a : Int}
  {values : List Int} {name : String} {outcome : Outcome} {ending : Ending}
  {next next' : List Frame → Bool → SearchM τ Propagator (Option Ending)}
  {s : Search τ Propagator} {Q : Option Ending → Search τ Propagator → Prop}
  {E : Breach → Search τ Propagator → Prop}

theorem roundsOf_cons : roundsOf (step :: steps) = step.move.rounds + roundsOf steps := by
  rw [roundsOf, List.map_cons, List.sum_cons, roundsOf]

theorem roundsOf_append : roundsOf (steps ++ rest) = roundsOf steps + roundsOf rest := by
  rw [roundsOf, List.map_append, List.sum_append, roundsOf, roundsOf]

namespace Search

theorem proceed_nil : proceed next [] ending = pure (some ending) := by
  cases ending <;> rfl

theorem proceed_of_ne (h : ending ≠ .exhausted) :
    proceed next frames ending = undoAll frames >>= fun _ => pure (some ending) := by
  cases ending with
  | exhausted => exact absurd rfl h
  | stopped | interrupted => rfl

theorem ends_rounds {descend : Bool} :
    Ends (rounds options (n + 1) frames descend) (g.state net condition wanted) Q E ↔
      Ends
        (if (Termination.shouldStop condition).1 then proceed (rounds options n) frames .stopped
          else if descend then expand options (rounds options n) frames
          else advance (rounds options n) frames)
        (g.state net (Termination.shouldStop condition).2 wanted) Q E := by
  rw [rounds, ends_bind, ends_poll]

theorem ends_advance_cons :
    Ends (advance next (frame :: frames)) s Q E ↔
      Ends (takeBack frame) s
        (fun _ t => Ends (advance next ({ frame with removed := none } :: frames)) t Q E) E := by
  rw [advance, ends_bind]
  exact Iff.rfl

theorem ends_proceed_cons :
    Ends (proceed next (frame :: frames) ending) s Q E ↔
      Ends (takeBack frame) s
        (fun _ t => Ends (proceed next ({ frame with removed := none } :: frames) ending) t Q E)
        E := by
  by_cases hend : ending = .exhausted
  · rw [hend]
    exact ends_advance_cons
  · rw [proceed_of_ne hend, proceed_of_ne hend, undoAll_cons, ends_bind, ends_bind]
    refine ends_congr fun _ t => ?_
    rw [undoAll_idle, ends_bind]

theorem ends_proceed_open (hwf : net.WellFormed) (hdecides : Decides net g x a name outcome)
    {g₁ : Progress} :
    Ends (proceed next (⟨x, values, some outcome.removed⟩ :: frames) ending)
        (g₁.state (net.deciding x a outcome) condition wanted) Q E ↔
      Ends (proceed next (⟨x, values, none⟩ :: frames) ending) (g₁.state net condition wanted) Q
        E := by
  rw [ends_proceed_cons, takeBack,
    ends_undo hwf hdecides.current.knows hdecides.behaves.records]

theorem ends_proceed_idle (h : ending ≠ .exhausted) :
    Ends (proceed next (⟨x, values, none⟩ :: frames) ending) s Q E ↔
      Ends (proceed next' frames ending) s Q E := by
  rw [proceed_of_ne h, proceed_of_ne h, undoAll_idle]

theorem ends_advance_usedUp :
    let played := play [⟨.backtrack, net, g.usedUp⟩] condition wanted
    Ends (advance (rounds options (n + 1)) (⟨x, [], none⟩ :: frames)) (g.state net condition wanted)
        Q E ↔
      Ends (proceed (rounds options n) frames played.ending) (played.state net g) Q E := by
  intro played
  rw [ends_advance_cons, takeBack, ends_pure]
  change Ends (rounds options (n + 1) frames false) (g.usedUp.state net condition wanted) Q E ↔ _
  rw [ends_rounds]
  by_cases hstop : (Termination.shouldStop condition).1 = true
  · have hplayed : played = ⟨[_], .stopped, _, wanted⟩ :=
      play_cons_of_some (by rw [Move.react, ask, if_pos hstop])
    rw [if_pos hstop, hplayed]
    exact Iff.rfl
  · have hplayed : played = ⟨[_], .exhausted, _, wanted⟩ :=
      play_cons_of_none (by rw [Move.react, ask, if_neg hstop])
    rw [if_neg hstop, hplayed]
    exact Iff.rfl

theorem ends_advance_decide (hdecides : Decides net g x a name outcome) :
    Ends (advance (rounds options (n + 1)) (⟨x, a :: values, none⟩ :: frames))
        (g.state net condition wanted) Q E ↔
      Ends
        (if (Termination.shouldStop (Termination.decisionMade condition)).1 then
            proceed (rounds options n) (⟨x, values, some outcome.removed⟩ :: frames) .stopped
          else if outcome.status.isConsistent then
            expand options (rounds options n) (⟨x, values, some outcome.removed⟩ :: frames)
          else proceed (rounds options n) (⟨x, values, some outcome.removed⟩ :: frames) .exhausted)
        ((g.decided net name x a outcome).state (net.deciding x a outcome)
          (Termination.shouldStop (Termination.decisionMade condition)).2 wanted) Q E := by
  rw [ends_advance_cons, takeBack, ends_pure]
  change Ends (makeDecision x a >>= _) _ Q E ↔ _
  rw [ends_bind, ends_makeDecision hdecides, ends_rounds]
  rfl

theorem ends_advance_stopped (hwf : net.WellFormed) (hdecides : Decides net g x a name outcome)
    (hstop : (Termination.shouldStop (Termination.decisionMade condition)).1 = true)
    (steps : List Step) :
    let played := play (⟨.decision x a outcome.status, net.deciding x a outcome,
      g.decided net name x a outcome⟩ :: steps) condition wanted
    Ends (advance (rounds options (n + 1)) (⟨x, a :: values, none⟩ :: frames))
        (g.state net condition wanted) Q E ↔
      Ends (proceed next frames played.ending) (played.state net g) Q E := by
  intro played
  have hleave : Ending.stopped ≠ .exhausted := fun he => nomatch he
  have hplayed : played = ⟨[_], .stopped, _, wanted⟩ :=
    play_cons_of_some (by rw [Move.react, ask, if_pos hstop])
  rw [ends_advance_decide hdecides, if_pos hstop, ends_proceed_open hwf hdecides,
    ends_proceed_idle hleave, hplayed]
  exact Iff.rfl

end Search

/-- The loop for a goal, with a number of rounds after this one. -/
def Goal.loop {π : Type} [Propagation π] (goal : Goal) (options : Options) (n : Nat)
    (frames : List Frame) : SearchM τ π (Option Ending) :=
  match goal with
  | .node => Search.expand options (Search.rounds options n) frames
  | .values x rest => Search.advance (Search.rounds options n) (⟨x, rest, none⟩ :: frames)

/-- A loop for a goal ends as a run through its exploration does, or comes back to the frames below
with the rounds that are left. -/
theorem Explores.loop_ends (h : Explores options goal depth net g steps g') (hwf : net.WellFormed)
    (hdepth : frames.length = depth) (n : Nat) (condition : τ) (wanted : Option Nat) :
    Ends (goal.loop options (n + roundsOf steps) frames) (g.state net condition wanted) Q E ↔
      Ends (Search.proceed (Search.rounds options n) frames (play steps condition wanted).ending)
        ((play steps condition wanted).state net g) Q E := by
  -- The frames below are not touched before the goal is exhausted or the loop is left, so that
  -- nothing has to be known of the decisions open there.
  induction h generalizing frames n condition wanted Q E with
  | @leaf depth net g s hselect hs =>
    rw [Goal.loop, Search.expand, ends_bind, ends_get, Progress.network_state, hselect, ends_bind,
      Search.ends_reportSolution hs, hdepth]
    by_cases hlast : wanted.map (· - 1) = some 0
    · rw [if_pos hlast, play_cons_of_some (by rw [Move.react, if_pos hlast])]
      exact Iff.rfl
    · rw [if_neg hlast, play_cons_of_none (by rw [Move.react, if_neg hlast])]
      exact Iff.rfl
  | @node depth net g g' x v values generator steps hselect hv horder hexplored ih =>
    rw [Goal.loop, Search.expand, ends_bind, ends_get, Progress.network_state, hselect, ends_bind,
      Search.ends_orderedValues hv horder, ends_bind, Search.ends_count, hdepth]
    have hvalues := ih hwf hdepth n condition wanted (Q := Q) (E := E)
    rw [play_state_congr hexplored.ne_nil net _ g] at hvalues
    exact hvalues
  | usedUp => exact Search.ends_advance_usedUp
  | @deadEnd x a rest depth net g g' name outcome steps hdecides hstatus hleft ih =>
    have hsum : n + roundsOf (⟨.decision x a outcome.status, net.deciding x a outcome,
        g.decided net name x a outcome⟩ :: steps) = n + roundsOf steps + 1 := by
      rw [roundsOf_cons, Move.rounds]
      omega
    rw [Goal.loop, hsum]
    by_cases hstop : (Termination.shouldStop (Termination.decisionMade condition)).1 = true
    · exact Search.ends_advance_stopped hwf hdecides hstop steps
    · rw [Search.ends_advance_decide hdecides, if_neg hstop,
        if_neg (mt Status.isConsistent_eq_true_iff.mp hstatus),
        Search.ends_proceed_open hwf hdecides,
        play_cons_of_none (by rw [Move.react, ask, if_neg hstop])]
      exact ih hwf hdepth n _ wanted
  | @descend x a rest depth net g g₁ g' name outcome below steps hdecides hstatus hbelow hleft
      ihBelow ihRest =>
    have hsum : n + roundsOf (⟨.decision x a outcome.status, net.deciding x a outcome,
        g.decided net name x a outcome⟩ :: (below ++ steps)) =
          n + roundsOf steps + roundsOf below + 1 := by
      rw [roundsOf_cons, roundsOf_append, Move.rounds]
      omega
    rw [Goal.loop, hsum]
    by_cases hstop : (Termination.shouldStop (Termination.decisionMade condition)).1 = true
    · exact Search.ends_advance_stopped hwf hdecides hstop (below ++ steps)
    · rw [Search.ends_advance_decide hdecides, if_neg hstop,
        if_pos (Status.isConsistent_eq_true_iff.mpr hstatus),
        play_cons_of_none (by rw [Move.react, ask, if_neg hstop]), play_append]
      refine (ihBelow (Network.wellFormed_deciding hwf) (congrArg (· + 1) hdepth) _ _ wanted).trans ?_
      rw [Played.state, Search.ends_proceed_open hwf hdecides]
      generalize hplayed : play below (Termination.shouldStop
        (Termination.decisionMade condition)).2 wanted = played
      by_cases hend : played.ending = .exhausted
      · have hmade : played.made = below := hplayed ▸ made_eq_of_exhausted (hplayed ▸ hend)
        rw [hmade, hbelow.finish_eq, if_pos hend, hend]
        refine (ihRest hwf hdepth n played.condition played.wanted).trans ?_
        rw [Played.state, ← hbelow.finish_append (g.decided net name x a outcome)]
        exact Iff.rfl
      · rw [if_neg hend]
        exact Search.ends_proceed_idle hend

/-- With more rounds than it ends, the loop from the root runs as the recursion does. -/
theorem Searches.ends_within (h : Searches options net g steps g') (hwf : net.WellFormed)
    (hn : roundsOf steps < n) (condition : τ) (wanted : Option Nat) :
    let played := play steps condition wanted
    Ends (Search.fromRootWithin options n) (g.state net condition wanted) Q E ↔
      Q (some played.ending) (((g.finish played.made).ended played.ending).state net
        played.condition played.wanted) := by
  intro played
  cases h with
  | @failed outcome hbehaves hstatus =>
    have hnot := mt Status.isConsistent_eq_true_iff.mp hstatus
    have hplayed : played = ⟨[_], .exhausted, condition, wanted⟩ :=
      play_cons_of_none (by rw [Move.react, if_neg hnot])
    rw [Search.fromRootWithin, ends_bind, Search.ends_propagate hbehaves, hplayed]
    dsimp only
    rw [if_neg hnot, ends_bind, Search.ends_note]
    exact ends_leave (g := g.failed net outcome) hwf hbehaves.records .exhausted _
  | @explored outcome below g' hbehaves hstatus hexplored =>
    have hconsistent := Status.isConsistent_eq_true_iff.mpr hstatus
    obtain ⟨k, rfl⟩ : ∃ k, n = k + roundsOf below + 1 := by
      rw [roundsOf_cons, Move.rounds] at hn
      exact ⟨n - roundsOf below - 1, by omega⟩
    rw [Search.fromRootWithin, ends_bind, Search.ends_propagate hbehaves]
    dsimp only
    rw [if_pos hconsistent, ends_bind, Search.ends_rounds]
    by_cases hstop : (Termination.shouldStop condition).1 = true
    · have hplayed : played = ⟨[_], .stopped, _, wanted⟩ :=
        play_cons_of_some (by rw [Move.react, if_pos hconsistent, ask, if_pos hstop])
      rw [if_pos hstop, Search.proceed_nil, ends_pure, hplayed]
      exact ends_leave hwf hbehaves.records .stopped _
    · have hreact : (Move.root outcome.status).react condition wanted =
          (none, (Termination.shouldStop condition).2, wanted) := by
        rw [Move.react, if_pos hconsistent, ask, if_neg hstop]
      rw [if_neg hstop, if_pos rfl]
      refine (hexplored.loop_ends (hwf.without _) rfl k _ wanted).trans ?_
      rw [Search.proceed_nil, ends_pure]
      refine (ends_leave hwf hbehaves.records _ _).trans ?_
      rw [show played = _ from play_cons_of_none hreact]
      exact Iff.rfl

theorem Searches.searchWithin_eq {solver : Solver} {detail : Option Level}
    (h : Searches solver.options solver.network (solver.progress detail) steps g')
    (hwf : solver.network.WellFormed) (hn : roundsOf steps < n) (condition : τ)
    (wanted : Option Nat) :
    solver.searchWithin n condition detail wanted =
      .ok (some (solver.played detail (play steps condition wanted))) := by
  have hrun : (Search.fromRootWithin solver.options n).run
      ((solver.progress detail).state solver.network condition wanted) = _ :=
    ((h.ends_within hwf hn condition wanted).mpr ⟨rfl, rfl⟩).run_eq
  have hstart : (⟨solver.network, solver.propagator, solver.generator, solver.counters,
      .empty detail, condition, wanted⟩ : Search τ Propagator) =
        (solver.progress detail).state solver.network condition wanted := rfl
  rw [Solver.searchWithin, hstart, hrun]
  rfl

/-- On the pair of ordered variables two decisions and two backtracks are made, each in a round, and
the last round finds the stack empty. -/
example : [4, 5].map (fun n => ((Solver.ofNetwork .orderedPair {}).searchWithin n Condition.never
    none none).toOption.map Option.isSome) = [some false, some true] := by
  decide +kernel

end FiniteDomain
