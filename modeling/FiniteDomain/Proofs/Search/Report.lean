import FiniteDomain.Proofs.Search.Run
/-!
# What steps leave

However far a run goes through the steps of a search, it has reported the solutions among them and
nothing else, and its propagator is ready to be called again.
-/
namespace FiniteDomain

def solutionsOf : List Step → List Solution
  | [] => []
  | ⟨.solution s, _, _⟩ :: steps => s :: solutionsOf steps
  | _ :: steps => solutionsOf steps

/-- From one progress to a later one, with the solutions reported in between. -/
structure Progress.Leads (g g' : Progress) (found : List Solution) : Prop where
  ready : g.propagator.Ready → g'.propagator.Ready
  kind_eq : g'.propagator.kind = g.propagator.kind
  solutions_eq : g'.journal.solutions = g.journal.solutions ++ found

/-- Each step leads on from the one before it, the first from the progress. -/
def Progress.Linked (g : Progress) : List Step → Prop
  | [] => True
  | step :: steps => g.Leads step.after (solutionsOf [step]) ∧ step.after.Linked steps

variable {options : Options} {goal : Goal} {depth : Nat} {net : Network} {g g₁ g' : Progress}
  {steps rest pre : List Step} {found found' : List Solution} {outcome : Outcome}
  {x : VariableId} {a : Int} {name : String} {trigger : Option VariableId}

theorem solutionsOf_cons (step : Step) (steps : List Step) :
    solutionsOf (step :: steps) = solutionsOf [step] ++ solutionsOf steps := by
  obtain ⟨move, network, after⟩ := step
  cases move <;> rfl

theorem solutionsOf_append : solutionsOf (steps ++ rest) = solutionsOf steps ++ solutionsOf rest := by
  induction steps with
  | nil => rfl
  | cons step steps ih =>
    rw [List.cons_append, solutionsOf_cons, ih, ← List.append_assoc, ← solutionsOf_cons]

theorem isPrefix_solutionsOf (h : pre <+: steps) : solutionsOf pre <+: solutionsOf steps := by
  obtain ⟨rest, rfl⟩ := h
  exact ⟨solutionsOf rest, solutionsOf_append.symm⟩

namespace Progress

theorem Leads.refl (g : Progress) : g.Leads g [] := ⟨id, rfl, (List.append_nil _).symm⟩

theorem Leads.trans (h : g.Leads g₁ found) (h' : g₁.Leads g' found') :
    g.Leads g' (found ++ found') where
  ready hready := h'.ready (h.ready hready)
  kind_eq := h'.kind_eq.trans h.kind_eq
  solutions_eq := by rw [h'.solutions_eq, h.solutions_eq, List.append_assoc]

theorem leads_propagated (h : g.propagator.Behaves trigger net g.journal outcome) :
    g.Leads (g.propagated trigger net outcome) [] where
  ready _ := h.ready
  kind_eq := h.kind_eq
  solutions_eq := h.solutions_eq.trans (List.append_nil _).symm

theorem leads_failed (h : g.propagator.Behaves none net g.journal outcome) :
    g.Leads (g.failed net outcome) [] := by
  have hleads := leads_propagated h
  refine ⟨hleads.ready, hleads.kind_eq, ?_⟩
  exact (Journal.solutions_record _ _).trans hleads.solutions_eq

theorem leads_decided (h : Decides net g x a name outcome) :
    g.Leads (g.decided net name x a outcome) [] where
  ready _ := h.ready
  kind_eq := h.kind_eq
  solutions_eq := by
    have hleads := leads_propagated (g := g.chosen name a) h.behaves
    have hjournal : (g.decided net name x a outcome).journal =
        ((g.chosen name a).propagated (some x) (net.assigning x a) outcome).journal := by
      unfold decided
      split <;> rfl
    rw [hjournal, hleads.solutions_eq]
    exact congrArg (· ++ []) (Journal.solutions_record _ _)

theorem leads_reported (g : Progress) (depth : Nat) (s : Solution) :
    g.Leads (g.reported depth s) [s] where
  ready := id
  kind_eq := rfl
  solutions_eq := (Journal.solutions_report _ _).trans
    (congrArg (· ++ [s]) (Journal.solutions_record _ _))

theorem linked_append : g.Linked (steps ++ rest) ↔ g.Linked steps ∧ (g.finish steps).Linked rest := by
  induction steps generalizing g with
  | nil => exact (iff_of_eq (true_and _)).symm
  | cons step steps ih =>
    rw [List.cons_append, Linked, Linked, ih, and_assoc]
    exact Iff.rfl

theorem Linked.leads (h : g.Linked steps) : g.Leads (g.finish steps) (solutionsOf steps) := by
  induction steps generalizing g with
  | nil => exact .refl g
  | cons step steps ih =>
    rw [solutionsOf_cons]
    exact h.1.trans (ih h.2)

theorem Linked.leads_of_isPrefix (h : g.Linked steps) (hpre : pre <+: steps) :
    g.Leads (g.finish pre) (solutionsOf pre) := by
  obtain ⟨rest, rfl⟩ := hpre
  exact (linked_append.mp h).1.leads

theorem Linked.congr (h : g.Linked steps) (hpropagator : g₁.propagator = g.propagator)
    (hjournal : g₁.journal = g.journal) : g₁.Linked steps := by
  cases steps with
  | nil => trivial
  | cons step steps =>
    refine ⟨⟨?_, ?_, ?_⟩, h.2⟩
    · rw [hpropagator]
      exact h.1.ready
    · rw [hpropagator]
      exact h.1.kind_eq
    · rw [hjournal]
      exact h.1.solutions_eq

end Progress

theorem Explores.linked (h : Explores options goal depth net g steps g') : g.Linked steps := by
  induction h with
  | @leaf depth net g s => exact ⟨g.leads_reported depth s, trivial⟩
  | node _ _ _ _ ih => exact ih.congr rfl rfl
  | usedUp => exact ⟨⟨id, rfl, (List.append_nil _).symm⟩, trivial⟩
  | deadEnd hdecides _ _ ih => exact ⟨Progress.leads_decided hdecides, ih⟩
  | descend hdecides _ hbelow _ ihBelow ihRest =>
    refine ⟨Progress.leads_decided hdecides, Progress.linked_append.mpr ⟨ihBelow, ?_⟩⟩
    rw [hbelow.finish_eq]
    exact ihRest

theorem Searches.linked (h : Searches options net g steps g') : g.Linked steps := by
  cases h with
  | failed hbehaves => exact ⟨Progress.leads_failed hbehaves, trivial⟩
  | explored hbehaves _ hexplored => exact ⟨Progress.leads_propagated hbehaves, hexplored.linked⟩

end FiniteDomain
