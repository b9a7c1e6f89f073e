import FiniteDomain.Proofs.Search.Step
/-!
# Playing an exploration

A run goes through the steps of an exploration until the condition or the number of wanted
solutions ends it. So every run below a node makes a first part of the same steps, and leaves the
network as it was.
-/
namespace FiniteDomain

variable {τ : Type} [Termination τ]

/-- Whether the condition stops, and what the question makes of it. -/
def ask (condition : τ) (wanted : Option Nat) : Option Ending × τ × Option Nat :=
  (if (Termination.shouldStop condition).1 then some .stopped else none,
    (Termination.shouldStop condition).2, wanted)

/-- The reason to end after a move, if there is one, and what the move makes of the condition and
the number of wanted solutions. -/
def Move.react (move : Move) (condition : τ) (wanted : Option Nat) : Option Ending × τ × Option Nat :=
  match move with
  | root status => if status.isConsistent then ask condition wanted else (none, condition, wanted)
  | decision _ _ _ => ask (Termination.decisionMade condition) wanted
  | solution _ => (if wanted.map (· - 1) = some 0 then some .interrupted else none, condition,
      wanted.map (· - 1))
  | backtrack => ask condition wanted

structure Played (τ : Type) where
  made : List Step
  ending : Ending
  condition : τ
  wanted : Option Nat

/-- Goes through the steps up to the first after which there is a reason to end. -/
def play : List Step → τ → Option Nat → Played τ
  | [], condition, wanted => ⟨[], .exhausted, condition, wanted⟩
  | step :: steps, condition, wanted =>
    match step.move.react condition wanted with
    | (some ending, condition, wanted) => ⟨[step], ending, condition, wanted⟩
    | (none, condition, wanted) =>
      let played := play steps condition wanted
      { played with made := step :: played.made }

def Progress.finish (g : Progress) (steps : List Step) : Progress :=
  steps.foldl (fun _ step => step.after) g

/-- The state that the steps made lead to, with the network as it was before. -/
def Played.state {τ : Type} (played : Played τ) (net : Network) (g : Progress) :
    Search τ Propagator :=
  (g.finish played.made).state net played.condition played.wanted

variable {options : Options} {goal : Goal} {depth unassigned : Nat} {net : Network}
  {g g' : Progress} {step : Step} {steps rest : List Step} {condition : τ} {wanted : Option Nat}

private theorem eq_of_ite_eq_some {q : Prop} [Decidable q] {ending ending' : Ending}
    (h : (if q then some ending' else none) = some ending) : ending = ending' := by
  by_cases hq : q
  · rw [if_pos hq] at h
    exact (Option.some.inj h).symm
  · rw [if_neg hq] at h
    cases h

theorem Move.react_eq_some {move : Move} {ending : Ending} {condition' : τ} {wanted' : Option Nat}
    (h : move.react condition wanted = (some ending, condition', wanted')) :
    ending = .stopped ∨ ending = .interrupted ∧ ∃ s, move = solution s := by
  cases move with
  | root status =>
    by_cases hstatus : status.isConsistent = true
    · rw [react, if_pos hstatus] at h
      exact .inl (eq_of_ite_eq_some (Prod.mk.inj h).1)
    · rw [react, if_neg hstatus] at h
      cases h
  | decision x a status => exact .inl (eq_of_ite_eq_some (Prod.mk.inj h).1)
  | solution s => exact .inr ⟨eq_of_ite_eq_some (Prod.mk.inj h).1, s, rfl⟩
  | backtrack => exact .inl (eq_of_ite_eq_some (Prod.mk.inj h).1)

theorem Move.react_ne_exhausted {move : Move} {ending : Ending} {condition' : τ}
    {wanted' : Option Nat}
    (h : move.react condition wanted = (some ending, condition', wanted')) :
    ending ≠ .exhausted := by
  rcases react_eq_some h with rfl | ⟨rfl, -⟩
  · exact fun he => nomatch he
  · exact fun he => nomatch he

theorem play_cons_of_some {ending : Ending} {condition' : τ} {wanted' : Option Nat}
    (h : step.move.react condition wanted = (some ending, condition', wanted')) :
    play (step :: steps) condition wanted = ⟨[step], ending, condition', wanted'⟩ := by
  rw [play, h]

theorem play_cons_of_none {condition' : τ} {wanted' : Option Nat}
    (h : step.move.react condition wanted = (none, condition', wanted')) :
    play (step :: steps) condition wanted =
      { play steps condition' wanted' with made := step :: (play steps condition' wanted').made } := by
  rw [play, h]

theorem exists_made_eq_cons (step : Step) (steps : List Step) (condition : τ)
    (wanted : Option Nat) :
    ∃ rest, (play (step :: steps) condition wanted).made = step :: rest := by
  rcases hreact : step.move.react condition wanted with ⟨ending?, condition', wanted'⟩
  cases ending? with
  | some ending => exact ⟨[], by rw [play_cons_of_some hreact]⟩
  | none => exact ⟨_, by rw [play_cons_of_none hreact]⟩

/-- Only a whole exploration ends exhausted. -/
theorem made_eq_of_exhausted (h : (play steps condition wanted).ending = .exhausted) :
    (play steps condition wanted).made = steps := by
  induction steps generalizing condition wanted with
  | nil => rfl
  | cons step steps ih =>
    rcases hreact : step.move.react condition wanted with ⟨ending?, condition', wanted'⟩
    cases ending? with
    | some ending =>
      rw [play_cons_of_some hreact] at h
      exact absurd h (Move.react_ne_exhausted hreact)
    | none =>
      rw [play_cons_of_none hreact] at h ⊢
      rw [ih h]

theorem play_append : play (steps ++ rest) condition wanted =
    if (play steps condition wanted).ending = .exhausted then
      let played := play rest (play steps condition wanted).condition
        (play steps condition wanted).wanted
      { played with made := steps ++ played.made }
    else play steps condition wanted := by
  induction steps generalizing condition wanted with
  | nil => rfl
  | cons step steps ih =>
    rcases hreact : step.move.react condition wanted with ⟨ending?, condition', wanted'⟩
    rw [List.cons_append]
    cases ending? with
    | some ending =>
      rw [play_cons_of_some hreact, play_cons_of_some hreact,
        if_neg (Move.react_ne_exhausted hreact)]
    | none =>
      rw [play_cons_of_none hreact, play_cons_of_none hreact, ih]
      by_cases hend : (play steps condition' wanted').ending = .exhausted
      · simp only [hend, if_true, List.cons_append]
      · simp only [hend, if_false]

theorem isPrefix_made (steps : List Step) (condition : τ) (wanted : Option Nat) :
    (play steps condition wanted).made <+: steps := by
  induction steps generalizing condition wanted with
  | nil => exact List.prefix_rfl
  | cons step steps ih =>
    rcases hreact : step.move.react condition wanted with ⟨ending?, condition', wanted'⟩
    cases ending? with
    | some ending =>
      rw [play_cons_of_some hreact]
      exact ⟨steps, rfl⟩
    | none =>
      rw [play_cons_of_none hreact]
      exact List.prefix_cons_inj step |>.mpr (ih condition' wanted')

theorem Progress.finish_append (g : Progress) (steps rest : List Step) :
    g.finish (steps ++ rest) = (g.finish steps).finish rest :=
  List.foldl_append

/-- An exploration is never empty: its last step leads to its last progress. -/
theorem Explores.finish_eq (h : Explores options goal depth net g steps g') (g₀ : Progress) :
    g₀.finish steps = g' := by
  induction h generalizing g₀ with
  | leaf => rfl
  | node _ _ _ _ ih => exact ih g₀
  | usedUp => rfl
  | deadEnd _ _ _ ih => exact ih _
  | descend _ _ _ _ _ ihRest =>
    rw [Progress.finish, List.foldl_cons, List.foldl_append]
    exact ihRest _

theorem Explores.finish_append (h : Explores options goal depth net g steps g') (g₀ : Progress)
    (rest : List Step) : g₀.finish (steps ++ rest) = g'.finish rest := by
  rw [Progress.finish_append, h.finish_eq]

theorem Explores.ne_nil (h : Explores options goal depth net g steps g') : steps ≠ [] := by
  induction h with
  | leaf => exact List.cons_ne_nil _ _
  | node _ _ _ _ ih => exact ih
  | usedUp => exact List.cons_ne_nil _ _
  | deadEnd => exact List.cons_ne_nil _ _
  | descend => exact List.cons_ne_nil _ _

theorem play_state_congr (hsteps : steps ≠ []) (net : Network) (g g₀ : Progress) :
    (play steps condition wanted).state net g = (play steps condition wanted).state net g₀ := by
  cases steps with
  | nil => exact absurd rfl hsteps
  | cons step steps =>
    obtain ⟨rest, hmade⟩ := exists_made_eq_cons step steps condition wanted
    rw [Played.state, Played.state, hmade]
    exact rfl

/-- The search for a goal, with at most `unassigned` variables to assign. -/
def Goal.search {π : Type} [Propagation π] (goal : Goal) (options : Options)
    (unassigned depth : Nat) : SearchM τ π Ending :=
  match goal with
  | node => Search.explore options unassigned depth
  | values x rest =>
    Search.tryValues (Search.explore options (unassigned - 1) (depth + 1)) x rest

private theorem ends_leaf {s : Solution} (hs : Search.currentSolution net = .ok s)
    {Q : Ending → Search τ Propagator → Prop} {E : Breach → Search τ Propagator → Prop} :
    Ends (Search.reportSolution depth) (g.state net condition wanted) Q E ↔
      Q (play [⟨.solution s, net, g.reported depth s⟩] condition wanted).ending
        ((play [⟨.solution s, net, g.reported depth s⟩] condition wanted).state net g) := by
  rw [Search.ends_reportSolution hs]
  by_cases hlast : wanted.map (· - 1) = some 0
  · rw [if_pos hlast, play_cons_of_some (by rw [Move.react, if_pos hlast])]
    exact Iff.rfl
  · rw [if_neg hlast, play_cons_of_none (by rw [Move.react, if_neg hlast])]
    exact Iff.rfl

private theorem ends_usedUp (descend : SearchM τ Propagator Ending) (x : VariableId)
    {Q : Ending → Search τ Propagator → Prop} {E : Breach → Search τ Propagator → Prop} :
    Ends (Search.tryValues descend x []) (g.state net condition wanted) Q E ↔
      Q (play [⟨.backtrack, net, g.usedUp⟩] condition wanted).ending
        ((play [⟨.backtrack, net, g.usedUp⟩] condition wanted).state net g) := by
  rw [Search.tryValues, ends_bind, Search.ends_count, ends_bind, Search.ends_poll, ends_pure]
  by_cases hstop : (Termination.shouldStop condition).1 = true
  · rw [if_pos hstop, play_cons_of_some (by rw [Move.react, ask, if_pos hstop])]
    exact Iff.rfl
  · rw [if_neg hstop, play_cons_of_none (by rw [Move.react, ask, if_neg hstop])]
    exact Iff.rfl

private theorem ends_tryValues_cons {x : VariableId} {a : Int} {values : List Int} {name : String}
    {outcome : Outcome} {descend : SearchM τ Propagator Ending}
    (hdecides : Decides net g x a name outcome) {Q : Ending → Search τ Propagator → Prop}
    {E : Breach → Search τ Propagator → Prop} :
    Ends (Search.tryValues descend x (a :: values)) (g.state net condition wanted) Q E ↔
      Ends
        (if (Termination.shouldStop (Termination.decisionMade condition)).1 then pure .stopped
          else if outcome.status.isConsistent then descend else pure .exhausted)
        ((g.decided net name x a outcome).state (net.deciding x a outcome)
          (Termination.shouldStop (Termination.decisionMade condition)).2 wanted)
        (fun ending t => Ends (Search.undo x outcome.removed) t
          (fun _ t => Ends
            (if ending = .exhausted then Search.tryValues descend x values else pure ending) t Q E)
          E) E := by
  rw [Search.tryValues, ends_bind, Search.ends_makeDecision hdecides, ends_bind, Search.ends_poll]
  by_cases hstop : (Termination.shouldStop (Termination.decisionMade condition)).1 = true
  · rw [if_pos hstop, if_pos hstop]
    refine Search.ends_thenUndo (fun ending => ?_) (pure .stopped)
    cases ending <;> rfl
  · by_cases hstatus : outcome.status.isConsistent = true
    · rw [if_neg hstop, if_neg hstop, if_pos hstatus, if_pos hstatus]
      refine Search.ends_thenUndo (fun ending => ?_) descend
      cases ending <;> rfl
    · rw [if_neg hstop, if_neg hstop, if_neg hstatus, if_neg hstatus]
      refine Search.ends_thenUndo (fun ending => ?_) (pure .exhausted)
      cases ending <;> rfl

private theorem ends_tryValues_stopped {x : VariableId} {a : Int} {values : List Int}
    {name : String} {outcome : Outcome} (descend : SearchM τ Propagator Ending)
    (hwf : net.WellFormed) (hdecides : Decides net g x a name outcome)
    (hstop : (Termination.shouldStop (Termination.decisionMade condition)).1 = true)
    (steps : List Step) {Q : Ending → Search τ Propagator → Prop}
    {E : Breach → Search τ Propagator → Prop} :
    let played := play (⟨.decision x a outcome.status, net.deciding x a outcome,
      g.decided net name x a outcome⟩ :: steps) condition wanted
    Ends (Search.tryValues descend x (a :: values)) (g.state net condition wanted) Q E ↔
      Q played.ending (played.state net g) := by
  rw [ends_tryValues_cons hdecides, if_pos hstop, ends_pure,
    Search.ends_undo hwf hdecides.current.knows hdecides.behaves.records,
    play_cons_of_some (by rw [Move.react, ask, if_pos hstop])]
  exact Iff.rfl

/-- A run below a node makes steps of its exploration, and hands back the network. -/
theorem Explores.ends (h : Explores options goal depth net g steps g') (hwf : net.WellFormed)
    (hbound : net.unassigned.length ≤ unassigned) (condition : τ) (wanted : Option Nat)
    {Q : Ending → Search τ Propagator → Prop} {E : Breach → Search τ Propagator → Prop} :
    Ends (goal.search options unassigned depth) (g.state net condition wanted) Q E ↔
      Q (play steps condition wanted).ending ((play steps condition wanted).state net g) := by
  -- Wherever the condition stops a run, what it has decided is taken back on the way out; where it does
  -- not, the run goes on with what is left of the steps.
  induction h generalizing unassigned condition wanted Q E with
  | @leaf depth net g s hselect hs =>
    cases unassigned with
    | zero => exact ends_leaf hs
    | succ unassigned =>
      rw [Goal.search, Search.explore, ends_bind, ends_get, Progress.network_state, hselect]
      exact ends_leaf hs
  | @node depth net g g' x v values generator steps hselect hv horder hexplored ih =>
    cases unassigned with
    | zero =>
      have hmem := VariableSelection.mem_of_select hselect
      rw [List.length_eq_zero_iff.mp (Nat.le_zero.mp hbound)] at hmem
      cases hmem
    | succ unassigned =>
      rw [Goal.search, Search.explore, ends_bind, ends_get, Progress.network_state, hselect,
        ends_bind, Search.ends_orderedValues hv horder, ends_bind, Search.ends_count]
      have hbelow := ih hwf hbound condition wanted (Q := Q) (E := E)
      rw [play_state_congr hexplored.ne_nil net _ g] at hbelow
      exact hbelow
  | @usedUp x depth net g =>
    exact ends_usedUp (Search.explore options (unassigned - 1) (depth + 1)) x
  | @deadEnd x a rest depth net g g' name outcome steps hdecides hstatus hleft ih =>
    by_cases hstop : (Termination.shouldStop (Termination.decisionMade condition)).1 = true
    · exact ends_tryValues_stopped _ hwf hdecides hstop steps
    · rw [Goal.search, ends_tryValues_cons hdecides, if_neg hstop,
        if_neg (mt Status.isConsistent_eq_true_iff.mp hstatus), ends_pure,
        Search.ends_undo hwf hdecides.current.knows hdecides.behaves.records,
        play_cons_of_none (by rw [Move.react, ask, if_neg hstop])]
      exact ih hwf hbound _ wanted
  | @descend x a rest depth net g g₁ g' name outcome below steps hdecides hstatus hbelow hleft
      ihBelow ihRest =>
    have hknows := hdecides.current.knows
    have hrecords := hdecides.behaves.records
    by_cases hstop : (Termination.shouldStop (Termination.decisionMade condition)).1 = true
    · exact ends_tryValues_stopped _ hwf hdecides hstop (below ++ steps)
    · have hcount : (net.deciding x a outcome).unassigned.length + 1 = net.unassigned.length :=
        Network.length_unassigned_deciding hknows hdecides.free
      rw [Goal.search, ends_tryValues_cons hdecides, if_neg hstop,
        if_pos (Status.isConsistent_eq_true_iff.mpr hstatus),
        play_cons_of_none (by rw [Move.react, ask, if_neg hstop]), play_append]
      refine (ihBelow (Network.wellFormed_deciding hwf) (by omega) _ wanted).trans ?_
      rw [Played.state, Search.ends_undo hwf hknows hrecords]
      generalize hplayed : play below (Termination.shouldStop
        (Termination.decisionMade condition)).2 wanted = played
      by_cases hend : played.ending = .exhausted
      · have hmade : played.made = below := hplayed ▸ made_eq_of_exhausted (hplayed ▸ hend)
        rw [hmade, hbelow.finish_eq, if_pos hend, if_pos hend]
        refine (ihRest hwf hbound played.condition played.wanted).trans ?_
        rw [Played.state, ← hbelow.finish_append (g.decided net name x a outcome)]
        exact Iff.rfl
      · rw [if_neg hend, if_neg hend, ends_pure]
        exact Iff.rfl

end FiniteDomain
