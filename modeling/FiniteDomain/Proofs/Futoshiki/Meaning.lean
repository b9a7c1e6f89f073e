import FiniteDomain.Proofs.Futoshiki.Model
import Mathlib.Data.Set.Function
/-!
# What the models of a board mean

Every board that is read can be modelled, with the cells in order as variables. Whether the cells
of a line are kept apart pair by pair or all at once, the solutions are the grids of the board.
-/
namespace FiniteDomain

/-- The solutions with values from the full domains that a network accepts. -/
def Network.accepted (net : Network) : Set Solution :=
  {s | net.isSolution s = .ok true ∧ ∀ x a, s.get? x = some a → net.InDomain x a}

namespace Futoshiki.Model

variable {b : Board} {net : Network} {x : VariableId} {a : Int} {s : Solution}

theorem HasCells.inDomain_iff_has (h : HasCells b net) : net.InDomain x a ↔ net.Has x a := by
  rw [Network.InDomain, Network.Has]
  refine exists_congr fun v => and_congr_right fun hv => ?_
  obtain ⟨i, j, hi, hj, rfl⟩ := h.exists_cell ⟨v, hv⟩
  have hcell : v = cellOf b ⟨i, j⟩ := Option.some.inj (hv.symm.trans (h.get?_eq hi hj))
  rw [← Variable.mem_currentDomain, hcell, cellOf, Variable.fullDomain_ofDomain,
    Variable.currentDomain_ofDomain]

theorem Represents.mem_accepted (h : Represents b net) (hb : b.Proper) :
    s ∈ net.accepted ↔ s.size = b.size * b.size ∧ b.SolvedBy (Grid.ofSolution b.size s) := by
  rw [← h.solved_iff hb, Network.accepted, Set.mem_ofPred_eq, Network.isSolution_eq_ok_true]
  apply and_congr_right
  intro _
  constructor
  · intro hdomain x a hx
    exact h.cells.inDomain_iff_has.mp (hdomain x a hx)
  · intro hoffers x a hx
    exact h.cells.inDomain_iff_has.mpr (hoffers hx)

/-- Read as a grid, each accepted solution solves the board, and each solved grid comes from one. -/
theorem Represents.bijOn_accepted (h : Represents b net) (hb : b.Proper) :
    Set.BijOn (Grid.ofSolution b.size) net.accepted {g | b.SolvedBy g} := by
  refine ⟨fun s hs => ?_, fun s hs s' hs' heq => ?_, fun g hg => ?_⟩
  · exact ((h.mem_accepted hb).mp hs).2
  · exact Grid.eq_of_ofSolution_eq ((h.mem_accepted hb).mp hs).1 ((h.mem_accepted hb).mp hs').1 heq
  · refine ⟨g.toSolution, (h.mem_accepted hb).mpr ⟨Grid.size_toSolution g, ?_⟩,
      Grid.ofSolution_toSolution g⟩
    rwa [Grid.ofSolution_toSolution]

/-- Both models of a board that is read can be built, and both accept exactly its grids. -/
theorem models_mean_board {text : String} (hparse : Board.parse text = .ok b)
    (detail : Option Level) :
    ∃ net : ModelKind → Network,
      (∀ kind, (∃ journal, build b kind detail = .ok (net kind, journal)) ∧
        (net kind).numVariables = b.size * b.size ∧
        (∀ i < b.size, ∀ j < b.size, cellVariable b.size ⟨i, j⟩ = ⟨i * b.size + j⟩ ∧
          (net kind).vars.get? ⟨i * b.size + j⟩ =
            some (.ofDomain s!"cell({i},{j})" (cellDomain b ⟨i, j⟩))) ∧
        Set.BijOn (Grid.ofSolution b.size) (net kind).accepted {g | b.SolvedBy g}) ∧
      (net .binary).accepted = (net .nary).accepted := by
  have hb := Board.proper_of_parse hparse
  choose net journal hbuild hrepresents using fun kind => build_eq_ok hb kind detail
  refine ⟨net, fun kind => ⟨⟨journal kind, hbuild kind⟩, (hrepresents kind).cells.numVariables_eq,
    fun i hi j hj => ⟨rfl, (hrepresents kind).cells.get?_eq hi hj⟩,
    (hrepresents kind).bijOn_accepted hb⟩, ?_⟩
  ext s
  rw [(hrepresents .binary).mem_accepted hb, (hrepresents .nary).mem_accepted hb]

/-- A board of two rows with the same value given twice in a row, so that no grid solves it. -/
theorem models_mean_board_conflict :
    let text := "1 < 1\n. .\n. . ."
    let b : Board := ⟨2, [[some 1, some 1], [none, none]], [[some .less], [none]], [[none, none]]⟩
    Board.parse text = .ok b ∧ ∃ net : ModelKind → Network,
      (∀ kind, (∃ journal, build b kind none = .ok (net kind, journal)) ∧
        (net kind).numVariables = 4 ∧
        (∀ i < 2, ∀ j < 2, cellVariable 2 ⟨i, j⟩ = ⟨i * 2 + j⟩ ∧
          (net kind).vars.get? ⟨i * 2 + j⟩ =
            some (.ofDomain s!"cell({i},{j})" (cellDomain b ⟨i, j⟩))) ∧
        Set.BijOn (Grid.ofSolution b.size) (net kind).accepted {g | b.SolvedBy g}) ∧
      (net .binary).accepted = (net .nary).accepted := by
  intro text b
  have hparse : Board.parse text = .ok b := by decide +kernel
  exact ⟨hparse, models_mean_board hparse none⟩

end Futoshiki.Model

end FiniteDomain
