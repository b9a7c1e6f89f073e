import FiniteDomain.Futoshiki.Report
import FiniteDomain.Proofs.Store
/-!
# Grids

A solution of a board is a grid of values. The cells are numbered row by row, so that a grid and
the list of its values say the same.
-/
namespace FiniteDomain.Futoshiki

def Relation.Holds : Relation → Int → Int → Prop
  | less, a, b => a < b
  | greater, a, b => b < a

abbrev Grid (n : Nat) := Fin n → Fin n → Int

variable {n i j : Nat}

/-- What is written at a position; a zero stands for nothing. -/
def Grid.entry (g : Grid n) (p : Position) : Int :=
  if h : p.row < n ∧ p.col < n then g ⟨p.row, h.1⟩ ⟨p.col, h.2⟩ else 0

/-- Every row and every column has different values up to the size, and the given values and the
relations of the board are respected. -/
structure Board.SolvedBy (b : Board) (g : Grid b.size) : Prop where
  range : ∀ i j, 1 ≤ g i j ∧ g i j ≤ b.size
  rows : ∀ i, Function.Injective (g i)
  columns : ∀ j, Function.Injective fun i => g i j
  given : ∀ p a, b.cell p = some a → g.entry p = a
  related : ∀ d p r, b.relation d p = some r → r.Holds (g.entry p) (g.entry (neighbour p d))

/-- The lines printed for a grid: the board with its values, and the separator. -/
def Board.gridLines (b : Board) (g : Grid b.size) : List String :=
  (b.renderLines g.entry).map String.ofList ++ [separatorLine]

namespace Grid

/-- The grid of the values of a solution. -/
def ofSolution (n : Nat) (s : Solution) : Grid n := fun i j => Model.value n s ⟨i, j⟩

def toSolution (g : Grid n) : Solution := Store.ofList ((Board.positions n).map g.entry)

@[simp] theorem entry_mk (g : Grid n) (i j : Fin n) : g.entry ⟨i, j⟩ = g i j :=
  dif_pos ⟨i.isLt, j.isLt⟩

end Grid

theorem Board.mem_positions {p : Position} : p ∈ positions n ↔ p.row < n ∧ p.col < n := by
  simp only [positions, List.mem_flatMap, List.mem_map, List.mem_range]
  constructor
  · rintro ⟨i, hi, j, hj, rfl⟩
    exact ⟨hi, hj⟩
  · rintro ⟨hi, hj⟩
    exact ⟨p.row, hi, p.col, hj, rfl⟩

private theorem length_rows {α : Type} (f : Nat → Nat → α) (rows cols : Nat) :
    ((List.range rows).flatMap fun i => (List.range cols).map (f i)).length = rows * cols := by
  simp [List.length_flatMap]

private theorem getElem?_rows {α : Type} (f : Nat → Nat → α) {rows cols : Nat} (hi : i < rows)
    (hj : j < cols) :
    ((List.range rows).flatMap fun i => (List.range cols).map (f i))[i * cols + j]? =
      some (f i j) := by
  induction rows with
  | zero => omega
  | succ rows ih =>
    rw [List.range_succ, List.flatMap_append, List.flatMap_singleton]
    rcases Nat.lt_succ_iff_lt_or_eq.mp hi with hlt | rfl
    · have hbefore : i * cols + j < rows * cols := by
        calc i * cols + j < i * cols + cols := by omega
          _ = (i + 1) * cols := (Nat.succ_mul i cols).symm
          _ ≤ rows * cols := Nat.mul_le_mul_right cols hlt
      rw [List.getElem?_append_left (by rwa [length_rows]), ih hlt]
    · rw [List.getElem?_append_right (by rw [length_rows]; omega), length_rows]
      simp [hj]

theorem Board.length_positions (n : Nat) : (positions n).length = n * n := length_rows _ n n

theorem Board.getElem?_positions (hi : i < n) (hj : j < n) :
    (positions n)[i * n + j]? = some ⟨i, j⟩ :=
  getElem?_rows _ hi hj

theorem Model.exists_cellVariable {x : VariableId} (hx : x.index < n * n) :
    ∃ i j, i < n ∧ j < n ∧ x = cellVariable n ⟨i, j⟩ := by
  have hn : 0 < n := Nat.pos_of_ne_zero fun h => by simp [h] at hx
  refine ⟨x.index / n, x.index % n, Nat.div_lt_of_lt_mul hx, Nat.mod_lt _ hn, ?_⟩
  rw [cellVariable, Nat.div_add_mod']

theorem Model.cellVariable_lt (hi : i < n) (hj : j < n) :
    (cellVariable n ⟨i, j⟩).index < n * n := by
  have hget := Board.getElem?_positions hi hj
  rw [← Board.length_positions]
  exact (List.getElem?_eq_some_iff.mp hget).1

theorem Model.cellVariable_inj {p q : Position} (hp : p.col < n) (hq : q.col < n) :
    cellVariable n p = cellVariable n q ↔ p = q := by
  constructor
  · intro h
    have hindex : p.row * n + p.col = q.row * n + q.col := congrArg VariableId.index h
    have hcol : p.col = q.col := by
      have hmod := congrArg (· % n) hindex
      simpa [Nat.mul_add_mod', Nat.mod_eq_of_lt hp, Nat.mod_eq_of_lt hq] using hmod
    have hrow : p.row = q.row := by
      have hmul : p.row * n = q.row * n := by omega
      exact Nat.eq_of_mul_eq_mul_right (by omega) hmul
    cases p
    cases q
    simp_all
  · rintro rfl
    rfl

namespace Grid

theorem get?_of_size {s : Solution} (hs : s.size = n * n) (i j : Fin n) :
    s.get? (Model.cellVariable n ⟨i, j⟩) = some (ofSolution n s i j) := by
  obtain ⟨a, ha⟩ := Store.get?_of_lt_size (k := Model.cellVariable n ⟨i, j⟩)
    (hs ▸ Model.cellVariable_lt i.isLt j.isLt)
  rw [ofSolution, Model.value, ha, Option.getD_some]

theorem get?_eq_entry {s : Solution} (hs : s.size = n * n) {p : Position} (hrow : p.row < n)
    (hcol : p.col < n) : s.get? (Model.cellVariable n p) = some ((ofSolution n s).entry p) := by
  rw [entry, dif_pos ⟨hrow, hcol⟩]
  exact get?_of_size hs ⟨p.row, hrow⟩ ⟨p.col, hcol⟩

@[simp] theorem size_toSolution (g : Grid n) : g.toSolution.size = n * n := by
  rw [← Store.length_toList, toSolution, Store.toList_ofList, List.length_map,
    Board.length_positions]

theorem get?_toSolution (g : Grid n) (i j : Fin n) :
    g.toSolution.get? (Model.cellVariable n ⟨i, j⟩) = some (g i j) := by
  rw [Store.get?_eq, toSolution, Store.toList_ofList, List.getElem?_map]
  change ((Board.positions n)[i.val * n + j.val]?).map g.entry = _
  rw [Board.getElem?_positions i.isLt j.isLt, Option.map_some, entry_mk]

@[simp] theorem ofSolution_toSolution (g : Grid n) : ofSolution n g.toSolution = g := by
  funext i j
  rw [ofSolution, Model.value, get?_toSolution, Option.getD_some]

theorem eq_of_ofSolution_eq {s s' : Solution} (hs : s.size = n * n) (hs' : s'.size = n * n)
    (h : ofSolution n s = ofSolution n s') : s = s' := by
  apply Store.ext_get?
  intro x
  by_cases hx : x.index < n * n
  · obtain ⟨i, j, hi, hj, rfl⟩ := Model.exists_cellVariable hx
    have hget := get?_of_size hs ⟨i, hi⟩ ⟨j, hj⟩
    have hget' := get?_of_size hs' ⟨i, hi⟩ ⟨j, hj⟩
    rw [h] at hget
    exact hget.trans hget'.symm
  · have hle : n * n ≤ Key.index x := Nat.le_of_not_lt hx
    rw [(Store.get?_eq_none_iff s x).mpr (hs ▸ hle), (Store.get?_eq_none_iff s' x).mpr (hs' ▸ hle)]

end Grid

end FiniteDomain.Futoshiki
