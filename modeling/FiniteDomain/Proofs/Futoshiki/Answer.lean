import FiniteDomain.Futoshiki.Solve
import FiniteDomain.Proofs.Futoshiki.Model
import FiniteDomain.Proofs.Futoshiki.Report
import FiniteDomain.Proofs.Search.Limit
import FiniteDomain.Proofs.Search.Verdict
/-!
# Answers

What is printed for the text of a board says what is true of the board: each grid printed solves it,
and the last line claims no more than was searched. If nothing stops the search, as many grids are
printed as were asked for.
-/
namespace FiniteDomain.Futoshiki

/-- The grids that solve the board, each once. -/
structure Board.Lists (b : Board) (gs : List (Grid b.size)) : Prop where
  nodup : gs.Nodup
  mem_iff : ∀ g, g ∈ gs ↔ b.SolvedBy g

/-- What can be printed for a board whose grids are `all`, however the search ends. -/
inductive Board.Prints (b : Board) (all : List (Grid b.size)) : List String → Prop
  | some {gs : List (Grid b.size)} : (∀ g ∈ gs, g ∈ all) → Prints b all (gs.flatMap b.gridLines)
  | complete : Prints b all (all.flatMap b.gridLines ++ [completeLine])
  | unsatisfiable : all = [] → Prints b all [unsatisfiableLine]
  | unknown : Prints b all [unknownLine]

section
variable {τ : Type} {b : Board} {all : List (Grid b.size)} {task : Task τ} {printed : List String}

/-- Without a condition that stops, the first grid is printed, or as many as are asked for. -/
structure Task.AnsweredBy (task : Task τ) (all : List (Grid b.size)) (printed : List String) :
    Prop where
  first : task.allSolutions = false → task.limit = none →
    printed = all.head?.elim [unsatisfiableLine] b.gridLines
  enumerated : (task.allSolutions || task.limit.isSome) = true → task.limit ≠ some 0 →
    printed = (task.limit.elim all all.take).flatMap b.gridLines ++
      if all = [] then [unsatisfiableLine]
      else if task.limit.all (all.length < ·) then [completeLine] else []

theorem Task.AnsweredBy.printed_of_nil (h : task.AnsweredBy all printed) (hall : all = [])
    (hlimit : task.limit ≠ some 0) : printed = [unsatisfiableLine] := by
  subst hall
  by_cases hmode : (task.allSolutions || task.limit.isSome) = true
  · have hfound : task.limit.elim ([] : List (Grid b.size)) ([] : List (Grid b.size)).take = [] := by
      cases task.limit with
      | none => rfl
      | some n => exact List.take_nil
    rw [h.enumerated hmode hlimit, hfound]
    rfl
  · simp only [Bool.or_eq_true, not_or, Bool.not_eq_true, Option.isSome_eq_false_iff,
      Option.isNone_iff_eq_none] at hmode
    exact h.first hmode.1 hmode.2

end

variable {τ : Type} [Termination τ] {b : Board} {all gs : List (Grid b.size)} {net : Network}
  {options : Options} {steps : List Step} {g' : Progress} {solver : Solver} {task : Task τ}
  {detail : Option Level} {printed : List String}

namespace Board.Lists

theorem finite (h : b.Lists all) : {g | b.SolvedBy g}.Finite :=
  all.finite_toSet.subset fun g hg => (h.mem_iff g).mpr hg

theorem ncard_eq (h : b.Lists all) : {g | b.SolvedBy g}.ncard = all.length := by
  classical
  have hset : {g | b.SolvedBy g} = (all.toFinset : Set (Grid b.size)) := by
    ext g
    rw [List.coe_toFinset]
    exact (h.mem_iff g).symm
  rw [hset, Set.ncard_coe_finset, List.toFinset_card_of_nodup h.nodup]

theorem eq_nil_iff (h : b.Lists all) : all = [] ↔ {g | b.SolvedBy g} = ∅ := by
  rw [List.eq_nil_iff_forall_not_mem, Set.eq_empty_iff_forall_notMem]
  exact forall_congr' fun g => not_congr (h.mem_iff g)

end Board.Lists

theorem lists_solutionsOf (h : Model.Represents b net) (hb : b.Proper)
    (hsearches : Searches options net (solver.progress detail) steps g') :
    b.Lists ((solutionsOf steps).map (Grid.ofSolution b.size)) := by
  have hwf := h.reachable.wellFormed
  have hmem (s : Solution) : s ∈ solutionsOf steps ↔
      s.size = b.size * b.size ∧ b.SolvedBy (Grid.ofSolution b.size s) :=
    (hsearches.mem_solutionsOf_iff hwf h.cells.free).trans (h.solved_iff hb)
  have hnodup := hsearches.nodup_solutionsOf hwf h.cells.free
  refine ⟨hnodup.map_on fun s hs s' hs' heq => ?_, fun g => ?_⟩
  · exact Grid.eq_of_ofSolution_eq ((hmem s).mp hs).1 ((hmem s').mp hs').1 heq
  · rw [List.mem_map]
    constructor
    · rintro ⟨s, hs, rfl⟩
      exact ((hmem s).mp hs).2
    · intro hg
      have hgrid : Grid.ofSolution b.size g.toSolution = g := Grid.ofSolution_toSolution g
      exact ⟨g.toSolution, (hmem _).mpr ⟨Grid.size_toSolution g, hgrid.symm ▸ hg⟩, hgrid⟩

namespace Board.Prints

theorem eq_nil_of_unsatisfiable (h : b.Prints all printed) (hmem : unsatisfiableLine ∈ printed) :
    all = [] := by
  have hnot (gs : List (Grid b.size)) := not_mem_flatMap_gridLines unsatisfiableLine (by decide) gs
  cases h with
  | some _ => exact absurd hmem (hnot _)
  | complete =>
    rcases List.mem_append.mp hmem with hgrid | hcomplete
    · exact absurd hgrid (hnot _)
    · exact absurd (List.mem_singleton.mp hcomplete) (by decide)
  | unsatisfiable hnil => exact hnil
  | unknown => exact absurd (List.mem_singleton.mp hmem) (by decide)

theorem eq_of_complete (h : b.Prints all printed) {before after : List String}
    (heq : printed = before ++ completeLine :: after) :
    before = all.flatMap b.gridLines ∧ after = [] := by
  have hnot (gs : List (Grid b.size)) := not_mem_flatMap_gridLines completeLine (by decide) gs
  have hmem : completeLine ∈ printed := heq ▸ by simp
  cases h with
  | some _ => exact absurd hmem (hnot _)
  | complete =>
    obtain ⟨hbefore, -, hafter⟩ :=
      (List.append_cons_inj_of_notMem (hnot all) List.not_mem_nil).mp heq
    exact ⟨hbefore.symm, hafter.symm⟩
  | unsatisfiable hnil => exact absurd (List.mem_singleton.mp hmem) (by decide)
  | unknown => exact absurd (List.mem_singleton.mp hmem) (by decide)

end Board.Prints

section
variable (hsearches : Searches options net (solver.progress detail) steps g')
include hsearches

private theorem prints_enumeration (b : Board) (condition : τ) (limit : Option Nat) :
    let run := solver.played detail (play steps condition limit)
    b.Prints ((solutionsOf steps).map (Grid.ofSolution b.size))
      (texts (entryLines b run.journal ++
        enumerationVerdict ⟨run.journal.solutions, run.ending = .exhausted⟩)) := by
  intro run
  have hreported : run.journal.solutions = solutionsOf (play steps condition limit).made :=
    hsearches.solutions_played condition limit
  have hpre := isPrefix_solutionsOf (isPrefix_made steps condition limit)
  rw [enumeration_texts]
  by_cases hend : run.ending = .exhausted
  · have hmade : (play steps condition limit).made = steps := made_eq_of_exhausted hend
    rw [hreported, hmade]
    by_cases hnil : solutionsOf steps = []
    · simp only [hnil, hend, decide_true, if_true]
      exact .unsatisfiable rfl
    · simp only [if_neg hnil, hend, decide_true, if_true]
      exact .complete
  · rw [hreported]
    by_cases hnil : solutionsOf (play steps condition limit).made = []
    · simp only [hnil, hend, decide_false, if_true]
      exact .unknown
    · simp only [if_neg hnil, hend, decide_false, Bool.false_eq_true, if_false, List.append_nil]
      refine .some fun g hg => ?_
      obtain ⟨s, hs, rfl⟩ := List.mem_map.mp hg
      exact List.mem_map_of_mem (hpre.subset hs)

private theorem enumeration_of_neverStops (b : Board) {unending : τ}
    (hunending : Termination.NeverStops unending) {limit : Option Nat} (hlimit : limit ≠ some 0) :
    let run := solver.played detail (play steps unending limit)
    let all := (solutionsOf steps).map (Grid.ofSolution b.size)
    texts (entryLines b run.journal ++
        enumerationVerdict ⟨run.journal.solutions, run.ending = .exhausted⟩) =
      (limit.elim all all.take).flatMap b.gridLines ++
        if all = [] then [unsatisfiableLine]
        else if limit.all (all.length < ·) then [completeLine] else [] := by
  intro run all
  have hreported : run.journal.solutions = limit.elim (solutionsOf steps) (solutionsOf steps).take :=
    hsearches.reported_of_neverStops hunending hlimit
  have hend : run.ending = .exhausted ↔ limit.all (all.length < ·) = true := by
    refine (ending_eq_exhausted_iff hunending steps hlimit).trans ?_
    rw [List.length_map]
    cases limit <;> simp
  have hgrids : run.journal.solutions.map (Grid.ofSolution b.size) = limit.elim all all.take := by
    rw [hreported]
    cases limit with
    | none => rfl
    | some n => exact List.map_take
  have hnil : run.journal.solutions = [] ↔ all = [] := by
    rw [← List.map_eq_nil_iff (f := Grid.ofSolution b.size), hgrids]
    cases limit with
    | none => exact Iff.rfl
    | some n => exact List.take_eq_nil_iff.trans (or_iff_right fun hn => hlimit (congrArg some hn))
  rw [enumeration_texts, hgrids]
  congr 1
  by_cases hall : all = []
  · have hexhausted : run.ending = .exhausted := by
      rw [hend, hall]
      cases limit with
      | none => rfl
      | some n => exact decide_eq_true (Nat.pos_of_ne_zero fun hn => hlimit (congrArg some hn))
    rw [if_pos (hnil.mpr hall), if_pos hall, hexhausted]
    rfl
  · rw [if_neg (mt hnil.mp hall), if_neg hall]
    simp only [decide_eq_true_eq, hend]

private theorem prints_verdict (b : Board) {condition : τ} {verdict : Verdict}
    (hsat : ∀ s, verdict = .satisfiable s →
      s ∈ (solver.played detail (play steps condition (some 1))).journal.solutions)
    (hunsat : verdict = .unsatisfiable →
      (solver.played detail (play steps condition (some 1))).journal.solutions = [] ∧
        (play steps condition (some 1)).ending ≠ .stopped) :
    b.Prints ((solutionsOf steps).map (Grid.ofSolution b.size)) (texts (verdictLines b verdict)) := by
  have hpre := isPrefix_solutionsOf (isPrefix_made steps condition (some 1))
  cases verdict with
  | satisfiable s =>
    have hs := hsat s rfl
    rw [hsearches.solutions_played] at hs
    have hlines : texts (solutionLines b s) =
        [Grid.ofSolution b.size s].flatMap b.gridLines := by
      rw [solutionLines_texts, List.flatMap_singleton]
    rw [verdictLines, hlines]
    exact .some (List.forall_mem_singleton.mpr (List.mem_map_of_mem (hpre.subset hs)))
  | unsatisfiable =>
    obtain ⟨hnil, hstop⟩ := hunsat rfl
    have hend := hsearches.exhausted_of_unreported hnil hstop
    rw [hsearches.solutions_played, made_eq_of_exhausted hend] at hnil
    exact .unsatisfiable (by rw [hnil]; rfl)
  | unknown => exact .unknown

end

theorem searchBoard_of_search {run : Run τ}
    (hmode : (task.allSolutions || task.limit.isSome) = true) (hlimit : task.limit ≠ some 0)
    (h : solver.search task.condition detail task.limit = .ok run) :
    searchBoard task b solver detail =
      .ok (entryLines b run.journal ++
        enumerationVerdict ⟨run.journal.solutions, run.ending = .exhausted⟩, run.solver) := by
  rw [searchBoard, if_pos hmode, Solver.enumerate_eq_ok hlimit h]
  rfl

theorem searchBoard_of_satisfy {verdict : Verdict} {run : Run τ}
    (hmode : ¬(task.allSolutions || task.limit.isSome) = true)
    (h : solver.satisfy task.condition detail = .ok (verdict, run)) :
    searchBoard task b solver detail =
      .ok (eventLines run.journal ++ verdictLines b verdict, run.solver) := by
  rw [searchBoard, if_neg hmode, h]
  rfl

theorem searchBoard_eq_ok (h : Model.Represents b net) (hb : b.Proper) (task : Task τ)
    (detail : Option Level) :
    ∃ all lines solver, b.Lists all ∧
      searchBoard task b (.ofNetwork net task.options) detail = .ok (lines, solver) ∧
      b.Prints all (texts lines) ∧
      (Termination.NeverStops task.condition → task.AnsweredBy all (texts lines)) := by
  have hwf := h.reachable.wellFormed
  obtain ⟨steps, g', hsearches, hsearch⟩ :=
    (Solver.rests_ofNetwork net task.options).search_eq hwf detail
  have hlists := lists_solutionsOf h hb hsearches
  by_cases hmode : (task.allSolutions || task.limit.isSome) = true
  · have hnot : task.allSolutions = false → task.limit ≠ none := by
      intro hfirst hnone
      rw [hfirst, hnone] at hmode
      cases hmode
    by_cases hlimit : task.limit = some 0
    · refine ⟨_, [.text unknownLine], .ofNetwork net task.options, hlists, ?_, .unknown, fun _ => ?_⟩
      · rw [searchBoard, if_pos hmode, hlimit]
        rfl
      · exact ⟨fun hfirst hnone => absurd hnone (hnot hfirst), fun _ hne => absurd hlimit hne⟩
    · have hrun := searchBoard_of_search (b := b) hmode hlimit (hsearch task.condition task.limit)
      refine ⟨_, _, _, hlists, hrun, prints_enumeration hsearches b task.condition task.limit,
        fun hunending => ⟨fun hfirst hnone => absurd hnone (hnot hfirst), fun _ _ => ?_⟩⟩
      exact enumeration_of_neverStops hsearches b hunending hlimit
  · obtain ⟨verdict, hverdict, hsat, hunsat⟩ :=
      Solver.satisfy_eq_ok (hsearch task.condition (some 1))
    refine ⟨_, _, _, hlists, searchBoard_of_satisfy hmode hverdict, ?_,
      fun hunending => ⟨fun _ _ => ?_, fun hmode' => absurd hmode' hmode⟩⟩
    · rw [texts_append, texts_eventLines, List.nil_append]
      exact prints_verdict hsearches b hsat hunsat
    · obtain ⟨run, hrun, -⟩ :=
        hsearches.satisfy_of_neverStops hunending (hsearch task.condition (some 1))
      obtain rfl := (Prod.mk.inj (Except.ok.inj (hverdict.symm.trans hrun))).1
      rw [texts_append, texts_eventLines, List.nil_append]
      cases solutionsOf steps with
      | nil => rfl
      | cons s rest => exact solutionLines_texts b s

theorem solve_eq {text : String} (hparse : Board.parse text = .ok b) (task : Task τ)
    (detail : Option Level) :
    ∃ all solver, b.Lists all ∧ (solve task (.ok text.toUTF8) detail).result = .ok solver ∧
      b.Prints all (solve task (.ok text.toUTF8) detail).printed ∧
      (Termination.NeverStops task.condition →
        task.AnsweredBy all (solve task (.ok text.toUTF8) detail).printed) := by
  have hb := Board.proper_of_parse hparse
  obtain ⟨net, built, hbuild, hrepresents⟩ := Model.build_eq_ok hb task.kind detail
  obtain ⟨all, lines, solver, hlists, hsearch, hprints, hanswered⟩ :=
    searchBoard_eq_ok hrepresents hb task detail
  have hread : String.fromUTF8? text.toUTF8 = some text := dif_pos text.isValidUTF8
  have hsolve : ∃ j, solve task (.ok text.toUTF8) detail = ⟨eventLines j ++ lines, .ok solver⟩ := by
    simp only [solve, hread, solveText, hparse, solveBoard, hbuild, hsearch]
    exact ⟨_, rfl⟩
  obtain ⟨j, hj⟩ := hsolve
  have hprinted : (solve task (.ok text.toUTF8) detail).printed = texts lines := by
    rw [Report.printed_eq, hj, texts_append, texts_eventLines, List.nil_append]
  rw [hprinted]
  exact ⟨all, solver, hlists, by rw [hj], hprints, hanswered⟩

/-- The text of a board is answered for whatever model, options and condition. -/
theorem solve_answers {text : String} (hparse : Board.parse text = .ok b) (task : Task τ)
    (detail : Option Level) :
    let report := solve task (.ok text.toUTF8) detail
    let solved := {g : Grid b.size | b.SolvedBy g}
    (∃ solver, report.result = .ok solver) ∧ solved.Finite ∧
    (unsatisfiableLine ∈ report.printed → solved = ∅) ∧
    (∀ before after, report.printed = before ++ completeLine :: after →
      after = [] ∧ ∃ gs, b.Lists gs ∧ before = gs.flatMap b.gridLines) ∧
    (Termination.NeverStops task.condition →
      (task.allSolutions = false → task.limit = none →
        solved = ∅ ∧ report.printed = [unsatisfiableLine] ∨
          ∃ g ∈ solved, report.printed = b.gridLines g) ∧
      (task.allSolutions = true → task.limit = none →
        solved = ∅ ∧ report.printed = [unsatisfiableLine] ∨
          solved.Nonempty ∧ ∃ gs, b.Lists gs ∧
            report.printed = gs.flatMap b.gridLines ++ [completeLine]) ∧
      ∀ k, task.limit = some k → 1 ≤ k →
        solved = ∅ ∧ report.printed = [unsatisfiableLine] ∨
          solved.Nonempty ∧ ∃ gs : List (Grid b.size), gs.Nodup ∧ (∀ g ∈ gs, g ∈ solved) ∧
            gs.length = min k solved.ncard ∧
            report.printed = gs.flatMap b.gridLines ++
              if solved.ncard < k then [completeLine] else []) := by
  intro report solved
  obtain ⟨all, solver, hlists, hresult, hprints, hanswered⟩ := solve_eq hparse task detail
  refine ⟨⟨solver, hresult⟩, hlists.finite, fun hmem => ?_, fun before after heq => ?_,
    fun hunending => ?_⟩
  · exact hlists.eq_nil_iff.mp (hprints.eq_nil_of_unsatisfiable hmem)
  · obtain ⟨hbefore, hafter⟩ := hprints.eq_of_complete heq
    exact ⟨hafter, all, hlists, hbefore⟩
  have hanswer := hanswered hunending
  by_cases hall : all = []
  · have hempty : solved = ∅ := hlists.eq_nil_iff.mp hall
    have hprinted (hlimit : task.limit ≠ some 0) := hanswer.printed_of_nil hall hlimit
    refine ⟨fun _ hlimit => .inl ⟨hempty, hprinted ?_⟩, fun _ hlimit => .inl ⟨hempty, hprinted ?_⟩,
      fun k hlimit hk => .inl ⟨hempty, hprinted ?_⟩⟩
    all_goals
      rw [hlimit]
      simp
    omega
  · have hnonempty : solved.Nonempty :=
      Set.nonempty_iff_ne_empty.mpr (mt hlists.eq_nil_iff.mpr hall)
    refine ⟨fun hfirst hlimit => .inr ?_, fun hevery hlimit => .inr ⟨hnonempty, all, hlists, ?_⟩,
      fun k hlimit hk => .inr ⟨hnonempty, all.take k, ?_, ?_, ?_, ?_⟩⟩
    · obtain ⟨g, rest, rfl⟩ := List.exists_cons_of_ne_nil hall
      exact ⟨g, (hlists.mem_iff g).mp (List.mem_cons_self ..), hanswer.first hfirst hlimit⟩
    · have hprinted := hanswer.enumerated (by rw [hevery]; rfl) (by rw [hlimit]; simp)
      rw [hlimit, if_neg hall] at hprinted
      exact hprinted
    · exact hlists.nodup.sublist (List.take_sublist k all)
    · exact fun g hg => (hlists.mem_iff g).mp (List.mem_of_mem_take hg)
    · rw [List.length_take, hlists.ncard_eq]
    · have hprinted := hanswer.enumerated (by rw [hlimit]; simp) (by rw [hlimit]; simp; omega)
      rw [hlists.ncard_eq]
      simpa only [hlimit, if_neg hall, Option.elim_some, Option.all_some, decide_eq_true_eq]
        using hprinted

/-- For all grids of a board of two rows, in which the first value is the smaller. -/
theorem solve_answers_twoRows :
    let text := ". < .\n. .\n. . ."
    let b : Board := ⟨2, [[none, none], [none, none]], [[some .less], [none]], [[none, none]]⟩
    let task : Task Condition := ⟨⟨.arc, .smallestDomain, .random, 7⟩, .nary, true, none, .never⟩
    let report := solve task (.ok text.toUTF8) none
    let solved := {g : Grid b.size | b.SolvedBy g}
    Board.parse text = .ok b ∧ Termination.NeverStops Condition.never ∧
      (unsatisfiableLine ∈ report.printed → solved = ∅) ∧
      (solved = ∅ ∧ report.printed = [unsatisfiableLine] ∨
        solved.Nonempty ∧ ∃ gs, b.Lists gs ∧
          report.printed = gs.flatMap b.gridLines ++ [completeLine]) := by
  intro text b task report solved
  have hparse : Board.parse text = .ok b := by decide +kernel
  obtain ⟨-, -, hunsatisfiable, -, hall⟩ := solve_answers hparse task none
  exact ⟨hparse, Condition.neverStops_never, hunsatisfiable,
    (hall Condition.neverStops_never).2.1 rfl rfl⟩

/-- There is one such grid. -/
example : (solve (⟨{}, .binary, true, none, .never⟩ : Task Condition)
    (.ok ". < .\n. .\n. . .".toUTF8) none).printed =
      ["1 < 2", ".   .", "2 . 1", separatorLine, completeLine] := by
  decide +kernel

end FiniteDomain.Futoshiki
