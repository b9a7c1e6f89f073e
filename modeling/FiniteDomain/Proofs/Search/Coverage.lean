import FiniteDomain.Proofs.Propagation.Coverage
import FiniteDomain.Proofs.Search.Effort
/-!
# The effort of stronger constraints

Two networks on the same variables have the same solutions, and the constraints of the first cover
those of the second. With arc consistency and everything tried in its given order, a search of the
first reports what one of the second reports, with no more decisions.
-/
namespace FiniteDomain

/-- The first run reports what the second one reports, with no more decisions. -/
structure Run.Undercuts {τ : Type} (run run' : Run τ) : Prop where
  solutions_eq : run.journal.solutions = run'.journal.solutions
  decisions_le : run.solver.counters.decisions ≤ run'.solver.counters.decisions

variable {τ : Type} [Termination τ] {unending : τ} {first second net weak : Network}
  {detail detail' : Option Level} {limit : Option Nat}

theorem Network.Within.of_vars_eq (h : net.vars = weak.vars) : net.Within weak where
  size_eq := by rw [h]
  assigned_eq := by
    funext x
    rw [assigned, assigned, h]
  sublist hv hw := by
    rw [h] at hv
    obtain rfl := Option.some.inj (hv.symm.trans hw)
    exact .refl _
  outlived {_ a} ha := ⟨a, by rwa [Has, h]⟩

/-- Below a network without assigned variables, no decision that goes on with the covering
constraints goes wrong with the covered ones. -/
theorem Network.retraces_of_covers (hwf : first.WellFormed) (hfree : first.Free)
    (hvars : first.vars = second.vars) (hcovers : first.Covers second) :
    first.Retraces second .arc .arc fun net weak =>
      net.Within weak ∧ net.Covers weak ∧ net.Explorable .arc where
  within h := h.1
  root {p p' j j' outcome outcome'} hkind hkind' h h' hstatus := by
    have hkeeps := h.keeps_root hwf hfree hstatus
    rw [hkind] at hkeeps
    obtain ⟨hstatus', hwithin⟩ := h.dominates_of_covers h' hkind hkind' hwf (.of_vars_eq hvars)
      hcovers hstatus hkeeps.1
    refine ⟨hstatus', hwithin, hcovers, hwf.without _, hkeeps, ?_⟩
    intro x a hx
    rw [assigned_without, hfree] at hx
    cases hx
  decision {net weak g g' x a name name' outcome outcome'} hkind hkind' hR h h' hstatus := by
    obtain ⟨hwithin, hcovers, hnet⟩ := hR
    have hnet' := h.explorable (hkind.symm ▸ hnet) hstatus
    rw [h.kind_eq, hkind] at hnet'
    obtain ⟨hstatus', hwithin'⟩ := h.behaves.dominates_of_covers h'.behaves hkind hkind'
      (hnet.wellFormed.assigning x a) (hwithin.assigning h.current.knows a) hcovers hstatus hnet'.keeps.1
    exact ⟨hstatus', hwithin', hcovers, hnet'⟩

private theorem Searches.undercuts {solver solver' : Solver} {steps steps' : List Step}
    {g₁ g₁' : Progress} {options options' : Options}
    (h : Searches options first (solver.progress detail) steps g₁)
    (h' : Searches options' second (solver'.progress detail') steps' g₁')
    (hsub : (trail steps).Sublist (trail steps')) (hsame : solutionsOf steps = solutionsOf steps')
    (hcounters : solver.counters.decisions = solver'.counters.decisions)
    (hunending : Termination.NeverStops unending) (hlimit : limit ≠ some 0) :
    (solver.played detail (play steps unending limit)).Undercuts
      (solver'.played detail' (play steps' unending limit)) where
  solutions_eq := by
    rw [h.reported_of_neverStops hunending hlimit, h'.reported_of_neverStops hunending hlimit, hsame]
  decisions_le := h.decisions_le h' hsub hsame hcounters hunending hlimit

private theorem Searches.satisfy_eq {solver : Solver} {steps : List Step} {g₁ : Progress}
    {options : Options} (h : Searches options net (solver.progress detail) steps g₁)
    (hunending : Termination.NeverStops unending)
    (hsearch : solver.search unending detail (some 1) =
      .ok (solver.played detail (play steps unending (some 1)))) :
    solver.satisfy unending detail = .ok ((solutionsOf steps).head?.elim .unsatisfiable .satisfiable,
      solver.played detail (play steps unending (some 1))) := by
  obtain ⟨verdict, hverdict, -⟩ := Solver.satisfy_eq_ok hsearch
  obtain ⟨run, hrun, -⟩ := h.satisfy_of_neverStops hunending hsearch
  rw [hverdict] at hrun ⊢
  cases hrun
  rfl

theorem Solver.undercuts_of_covers (hfirst : first.Reachable) (hsecond : second.Reachable)
    (hfree : first.Free) (hvars : first.vars = second.vars) (hcovers : first.Covers second)
    (hsame : ∀ s, first.SolvedBy s ∧ first.Offers s ↔ second.SolvedBy s ∧ second.Offers s)
    (hunending : Termination.NeverStops unending) (seed seed' : UInt64)
    (detail detail' : Option Level) :
    let strong := ofNetwork first ⟨.arc, .inputOrder, .inDomainOrder, seed⟩
    let weak := ofNetwork second ⟨.arc, .inputOrder, .inDomainOrder, seed'⟩
    (∃ verdict run run', strong.satisfy unending detail = .ok (verdict, run) ∧
      weak.satisfy unending detail' = .ok (verdict, run') ∧ run.Undercuts run') ∧
    ∀ limit : Option Nat, ∃ result run run',
      strong.enumerate unending detail limit = .ok (result, run) ∧
      weak.enumerate unending detail' limit = .ok (result, run') ∧ run.Undercuts run' := by
  intro strong weak
  have hwf := hfirst.wellFormed
  have hwf' := hsecond.wellFormed
  have hrests := rests_ofNetwork first ⟨.arc, .inputOrder, .inDomainOrder, seed⟩
  have hrests' := rests_ofNetwork second ⟨.arc, .inputOrder, .inDomainOrder, seed'⟩
  obtain ⟨steps, g₁, hsearches, hsearch⟩ := hrests.search_eq hwf detail
  obtain ⟨steps', g₁', hsearches', hsearch'⟩ := hrests'.search_eq hwf' detail'
  have hsub := hsearches.trail_sublist (Network.retraces_of_covers hwf hfree hvars hcovers) ⟨rfl, rfl⟩
    ⟨rfl, rfl⟩ hsearches' hrests.kind_eq hrests'.kind_eq
  have hfound := hsearches.solutionsOf_eq_of_vars_eq ⟨rfl, rfl⟩ ⟨rfl, rfl⟩ hsearches' hwf hwf' hfree
    hvars hsame
  have hundercuts {limit : Option Nat} (hlimit : limit ≠ some 0) :=
    hsearches.undercuts hsearches' hsub hfound rfl hunending hlimit
  constructor
  · have hverdict := hsearches.satisfy_eq hunending (hsearch unending (some 1))
    have hverdict' := hsearches'.satisfy_eq hunending (hsearch' unending (some 1))
    rw [← hfound] at hverdict'
    exact ⟨_, _, _, hverdict, hverdict', hundercuts fun hone => nomatch hone⟩
  · intro limit
    by_cases hlimit : limit = some 0
    · exact ⟨_, _, _, if_pos hlimit, if_pos hlimit, rfl, Nat.le_refl 0⟩
    · have hresult := enumerate_eq_ok hlimit (hsearch unending limit)
      have hresult' := enumerate_eq_ok hlimit (hsearch' unending limit)
      have hends : (play steps' unending limit).ending = .exhausted ↔
          (play steps unending limit).ending = .exhausted := by
        rw [ending_eq_exhausted_iff hunending _ hlimit, ending_eq_exhausted_iff hunending _ hlimit,
          hfound]
      have hsameResult : (⟨(weak.played detail' (play steps' unending limit)).journal.solutions,
            decide ((play steps' unending limit).ending = .exhausted)⟩ : Enumeration) =
          ⟨(strong.played detail (play steps unending limit)).journal.solutions,
            decide ((play steps unending limit).ending = .exhausted)⟩ := by
        rw [(hundercuts hlimit).solutions_eq, decide_eq_decide.mpr hends]
      refine ⟨_, _, _, hresult, hresult'.trans ?_, hundercuts hlimit⟩
      exact congrArg (fun result => Except.ok (result, _)) hsameResult

end FiniteDomain
