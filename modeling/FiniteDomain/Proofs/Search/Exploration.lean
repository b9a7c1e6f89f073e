import FiniteDomain.Proofs.Propagation.Propagator
import FiniteDomain.Proofs.Search.Branching
import FiniteDomain.Search.Explore
/-!
# Explorations

What a search does below a node if nothing ends it early, step by step and on networks that are
never changed in place. Such an exploration exists below every node.
-/
namespace FiniteDomain

/-- What a search carries along apart from its network. -/
structure Progress where
  propagator : Propagator
  generator : Generator
  counters : Counters
  journal : Journal

def Progress.state {τ : Type} (g : Progress) (net : Network) (condition : τ) (wanted : Option Nat) :
    Search τ Propagator :=
  ⟨net, g.propagator, g.generator, g.counters, g.journal, condition, wanted⟩

@[simp] theorem Progress.network_state {τ : Type} (g : Progress) (net : Network) (condition : τ)
    (wanted : Option Nat) : (g.state net condition wanted).network = net :=
  rfl

/-- What is done between two questions whether to stop. -/
inductive Move where
  /-- The propagation of the whole network at the start. -/
  | root (status : Status)
  | decision (x : VariableId) (a : Int) (status : Status)
  | solution (s : Solution)
  /-- The values of a variable are used up. -/
  | backtrack

structure Step where
  move : Move
  network : Network
  after : Progress

namespace Progress

def count (g : Progress) (f : Counters → Counters) : Progress := { g with counters := f g.counters }

def chosen (g : Progress) (name : String) (a : Int) : Progress :=
  { g with journal := g.journal.record (.decided name a) }.count
    fun n => { n with decisions := n.decisions + 1 }

def propagated (g : Progress) (trigger : Option VariableId) (net : Network) (outcome : Outcome) :
    Progress :=
  let r := g.propagator.call trigger net g.journal
  { g with propagator := r.own, journal := r.journal }.count fun n => { n with
    propagatorCalls := n.propagatorCalls + 1
    prunedValues := n.prunedValues + outcome.removed.length }

def decided (g : Progress) (net : Network) (name : String) (x : VariableId) (a : Int)
    (outcome : Outcome) : Progress :=
  let g := (g.chosen name a).propagated (some x) (net.assigning x a) outcome
  if outcome.status.isConsistent then g else g.count fun n => { n with deadEnds := n.deadEnds + 1 }

def reported (g : Progress) (depth : Nat) (s : Solution) : Progress :=
  let g := g.count fun n => { n with solutions := n.solutions + 1 }
  { g with journal := (g.journal.record (.solutionFound depth)).report s }

def expanded (g : Progress) (depth : Nat) (generator : Generator) : Progress :=
  { g with generator := generator }.count fun n => { n with peakDepth := max n.peakDepth (depth + 1) }

def usedUp (g : Progress) : Progress := g.count fun n => { n with backtracks := n.backtracks + 1 }

end Progress

def Network.deciding (net : Network) (x : VariableId) (a : Int) (outcome : Outcome) : Network :=
  (net.assigning x a).without outcome.removed

/-- The decision can be made, and its propagation has the outcome. -/
structure Decides (net : Network) (g : Progress) (x : VariableId) (a : Int) (name : String)
    (outcome : Outcome) : Prop where
  named : ∃ v, net.vars.get? x = some v ∧ v.name = name
  free : net.assigned x = none
  current : net.Has x a
  behaves : g.propagator.Behaves (some x) (net.assigning x a) (g.chosen name a).journal outcome

/-- Either a node is explored, or what is left of the values of a variable. -/
inductive Goal where
  | node
  | values (x : VariableId) (values : List Int)

/-- From the first progress, the steps lead to the last and leave nothing unexplored. -/
inductive Explores (options : Options) :
    Goal → (depth : Nat) → Network → Progress → List Step → Progress → Prop
  | leaf {depth : Nat} {net : Network} {g : Progress} {s : Solution} :
    options.variableSelection.select net = none → Search.currentSolution net = .ok s →
    Explores options .node depth net g [⟨.solution s, net, g.reported depth s⟩] (g.reported depth s)
  | node {depth : Nat} {net : Network} {g g' : Progress} {x : VariableId} {v : Variable}
    {values : List Int} {generator : Generator} {steps : List Step} :
    options.variableSelection.select net = some x → net.vars.get? x = some v →
    options.valueSelection.order v.currentDomain g.generator = (values, generator) →
    Explores options (.values x values) depth net (g.expanded depth generator) steps g' →
    Explores options .node depth net g steps g'
  | usedUp {x : VariableId} {depth : Nat} {net : Network} {g : Progress} :
    Explores options (.values x []) depth net g [⟨.backtrack, net, g.usedUp⟩] g.usedUp
  | deadEnd {x : VariableId} {a : Int} {rest : List Int} {depth : Nat} {net : Network}
    {g g' : Progress} {name : String} {outcome : Outcome} {steps : List Step} :
    Decides net g x a name outcome → outcome.status ≠ .consistent →
    Explores options (.values x rest) depth net (g.decided net name x a outcome) steps g' →
    Explores options (.values x (a :: rest)) depth net g
      (⟨.decision x a outcome.status, net.deciding x a outcome, g.decided net name x a outcome⟩ ::
        steps) g'
  | descend {x : VariableId} {a : Int} {rest : List Int} {depth : Nat} {net : Network}
    {g g₁ g' : Progress} {name : String} {outcome : Outcome} {below steps : List Step} :
    Decides net g x a name outcome → outcome.status = .consistent →
    Explores options .node (depth + 1) (net.deciding x a outcome)
      (g.decided net name x a outcome) below g₁ →
    Explores options (.values x rest) depth net g₁ steps g' →
    Explores options (.values x (a :: rest)) depth net g
      (⟨.decision x a outcome.status, net.deciding x a outcome, g.decided net name x a outcome⟩ ::
        (below ++ steps)) g'

variable {options : Options} {goal : Goal} {depth : Nat} {net : Network} {g g' : Progress}
  {steps : List Step} {x : VariableId} {a : Int} {name : String} {outcome : Outcome}

theorem Status.isConsistent_eq_true_iff {status : Status} :
    status.isConsistent = true ↔ status = .consistent := by
  cases status <;> simp [isConsistent]

theorem Progress.propagator_decided :
    (g.decided net name x a outcome).propagator =
      (g.propagator.call (some x) (net.assigning x a) (g.chosen name a).journal).own := by
  unfold decided
  split <;> rfl

theorem Network.wellFormed_deciding (hwf : net.WellFormed) : (net.deciding x a outcome).WellFormed :=
  (hwf.assigning x a).without _

theorem Network.length_unassigned_deciding (hx : net.Knows x) (hfree : net.assigned x = none) :
    (net.deciding x a outcome).unassigned.length + 1 = net.unassigned.length := by
  rw [deciding, unassigned_without]
  exact length_unassigned_assigning (mem_unassigned.mpr ⟨hx, hfree⟩)

theorem exists_decides (hwf : net.WellFormed) (hready : g.propagator.Ready)
    (hfree : net.assigned x = none) {v : Variable} (hv : net.vars.get? x = some v)
    (ha : v.contains a = true) : ∃ outcome, Decides net g x a v.name outcome := by
  have htrigger : (net.assigning x a).MayTrigger (some x) := by
    intro y hy
    cases hy
    exact ⟨a, by rw [Network.assigned_assigning ⟨v, hv⟩, if_pos rfl]⟩
  obtain ⟨outcome, hbehaves⟩ :=
    Propagator.call_behaves (hwf.assigning x a) htrigger hready (g.chosen v.name a).journal
  exact ⟨outcome, ⟨v, hv, rfl⟩, hfree, ⟨v, hv, ha⟩, hbehaves⟩

theorem Decides.ready (h : Decides net g x a name outcome) :
    (g.decided net name x a outcome).propagator.Ready := by
  rw [Progress.propagator_decided]
  exact h.behaves.ready

theorem Decides.kind_eq (h : Decides net g x a name outcome) :
    (g.decided net name x a outcome).propagator.kind = g.propagator.kind := by
  rw [Progress.propagator_decided]
  exact h.behaves.kind_eq

theorem Explores.ready (h : Explores options goal depth net g steps g')
    (hready : g.propagator.Ready) : g'.propagator.Ready := by
  induction h with
  | leaf => exact hready
  | node _ _ _ _ ih => exact ih hready
  | usedUp => exact hready
  | deadEnd hdecides _ _ ih => exact ih hdecides.ready
  | descend hdecides _ _ _ ihBelow ihRest => exact ihRest (ihBelow hdecides.ready)

theorem Explores.kind_eq (h : Explores options goal depth net g steps g') :
    g'.propagator.kind = g.propagator.kind := by
  induction h with
  | leaf => rfl
  | node _ _ _ _ ih => exact ih
  | usedUp => rfl
  | deadEnd hdecides _ _ ih => exact ih.trans hdecides.kind_eq
  | descend hdecides _ _ _ ihBelow ihRest => exact ihRest.trans (ihBelow.trans hdecides.kind_eq)

private theorem filterMap_eq_map {α : Type} {f : α → Option Int} {as : List α}
    (h : ∀ a ∈ as, (f a).isSome = true) : (as.filterMap f).map some = as.map f := by
  induction as with
  | nil => rfl
  | cons a as ih =>
    obtain ⟨b, hb⟩ := Option.isSome_iff_exists.mp (h a (List.mem_cons_self ..))
    rw [List.filterMap_cons_some hb, List.map_cons, List.map_cons, hb,
      ih fun a' ha' => h a' (List.mem_cons_of_mem _ ha')]

theorem currentSolution_eq_ok (h : net.unassigned = []) :
    ∃ s, Search.currentSolution net = .ok s ∧ s.size = net.numVariables ∧
      ∀ x, s.get? x = net.assigned x := by
  have hsome : ∀ v ∈ net.vars.toList, v.assignedValue.isSome = true := by
    intro v hv
    obtain ⟨x, hx⟩ := Store.mem_toList.mp hv
    obtain ⟨a, ha⟩ := Network.exists_assigned h ⟨v, hx⟩
    rw [Network.assigned, hx, Option.bind_some] at ha
    exact Option.isSome_iff_exists.mpr ⟨a, ha⟩
  have hmap := filterMap_eq_map hsome
  have hlength : (net.vars.toList.filterMap Variable.assignedValue).length = net.numVariables := by
    have := congrArg List.length hmap
    rwa [List.length_map, List.length_map, Store.length_toList] at this
  refine ⟨.ofList (net.vars.toList.filterMap Variable.assignedValue), if_pos hlength, hlength,
    fun x => ?_⟩
  have hget : ((net.vars.toList.filterMap Variable.assignedValue).map some)[Key.index x]? =
      (net.vars.toList.map Variable.assignedValue)[Key.index x]? := by rw [hmap]
  rw [List.getElem?_map, List.getElem?_map, ← Store.get?_eq] at hget
  rw [Store.get?_eq, Store.toList_ofList, Network.assigned]
  cases hv : net.vars.get? x with
  | none => simpa [hv] using hget
  | some v =>
    rw [hv] at hget
    obtain ⟨b, hb, hassigned⟩ := Option.map_eq_some_iff.mp hget
    rw [hb, Option.bind_some, hassigned]

private theorem exists_explores_values {unassigned : Nat} (hwf : net.WellFormed)
    (hbelow : ∀ (net : Network) (depth : Nat) (g : Progress), net.WellFormed →
      net.unassigned.length = unassigned → g.propagator.Ready →
      ∃ steps g', Explores options .node depth net g steps g')
    (hlength : net.unassigned.length = unassigned + 1) (hfree : net.assigned x = none)
    {v : Variable} (hv : net.vars.get? x = some v) {values : List Int}
    (hvalues : ∀ a ∈ values, v.contains a = true) (depth : Nat) (hready : g.propagator.Ready) :
    ∃ steps g', Explores options (.values x values) depth net g steps g' := by
  induction values generalizing g with
  | nil => exact ⟨_, _, .usedUp⟩
  | cons a rest ih =>
    have hrest : ∀ b ∈ rest, v.contains b = true := fun b hb => hvalues b (List.mem_cons_of_mem _ hb)
    obtain ⟨outcome, hdecides⟩ := exists_decides hwf hready hfree hv (hvalues a (by simp))
    by_cases hstatus : outcome.status = .consistent
    · have hcount : (net.deciding x a outcome).unassigned.length + 1 = net.unassigned.length :=
        Network.length_unassigned_deciding ⟨v, hv⟩ hfree
      obtain ⟨below, g₁, hexplored⟩ := hbelow (net.deciding x a outcome) (depth + 1)
        (g.decided net v.name x a outcome) (Network.wellFormed_deciding hwf) (by omega) hdecides.ready
      obtain ⟨steps, g', hleft⟩ := ih hrest (hexplored.ready hdecides.ready)
      exact ⟨_, g', .descend hdecides hstatus hexplored hleft⟩
    · obtain ⟨steps, g', hleft⟩ := ih hrest hdecides.ready
      exact ⟨_, g', .deadEnd hdecides hstatus hleft⟩

/-- Below every node there is an exploration. -/
theorem exists_explores (options : Options) (hwf : net.WellFormed) (depth : Nat)
    (hready : g.propagator.Ready) : ∃ steps g', Explores options .node depth net g steps g' := by
  induction hn : net.unassigned.length generalizing net depth g with
  | zero =>
    have hnone := List.length_eq_zero_iff.mp hn
    obtain ⟨s, hs, -⟩ := currentSolution_eq_ok hnone
    exact ⟨_, _, .leaf (VariableSelection.select_eq_none_iff.mpr hnone) hs⟩
  | succ unassigned ih =>
    cases hselect : options.variableSelection.select net with
    | none =>
      rw [VariableSelection.select_eq_none_iff.mp hselect] at hn
      cases hn
    | some x =>
      obtain ⟨⟨v, hv⟩, hfree⟩ := Network.mem_unassigned.mp (VariableSelection.mem_of_select hselect)
      have hperm := options.valueSelection.order_perm v.currentDomain g.generator
      have hvalues : ∀ a ∈ (options.valueSelection.order v.currentDomain g.generator).1,
          v.contains a = true := fun a ha => Variable.mem_currentDomain.mp (hperm.mem_iff.mp ha)
      obtain ⟨steps, g', hexplored⟩ := exists_explores_values hwf
        (fun net depth g hwf hlength hready => ih hwf depth hready hlength) hn hfree hv hvalues depth
        (g := g.expanded depth (options.valueSelection.order v.currentDomain g.generator).2) hready
      exact ⟨steps, g', .node hselect hv rfl hexplored⟩

end FiniteDomain
