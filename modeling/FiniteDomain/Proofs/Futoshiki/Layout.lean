import FiniteDomain.Proofs.Futoshiki.Grid
import FiniteDomain.Proofs.Futoshiki.Shape
/-!
# The layout of a board

Written one after the other, the lines of a table have each entry at the place that its row and
column give, and the relations of a board are listed in the order in which they are read.
-/
namespace FiniteDomain.Futoshiki

/-- Laid out row by row, the table has an entry at every place of so many rows and columns. -/
structure RowMajor {α : Type} (table : List (List (Option α))) (rows cols : Nat) : Prop where
  length_eq : table.flatten.length = rows * cols
  entry : ∀ p : Position, p.row < rows → p.col < cols →
    table.flatten[p.row * cols + p.col]? = some (tableEntry table p)

/-- Row by row, and from left to right in a row. -/
def Position.Before (p q : Position) : Prop := p.row < q.row ∨ p.row = q.row ∧ p.col < q.col

/-- A relation of a board with the first of the cells that it relates. -/
structure Site where
  position : Position
  direction : Direction
  relation : Relation

namespace Site

def pair (s : Site) : Position × Position :=
  Board.ordered s.relation s.position (Board.neighbour s.position s.direction)

/-- Cell by cell, the relation to the right neighbour before the one to the lower neighbour. -/
def Before (s t : Site) : Prop :=
  s.position.Before t.position ∨
    s.position = t.position ∧ s.direction = .across ∧ t.direction = .down

end Site

/-- The sites are those of all relations of the board, each once and in order. -/
structure Board.InOrder (b : Board) (sites : List Site) : Prop where
  mem_iff : ∀ s : Site, s ∈ sites ↔ b.relation s.direction s.position = some s.relation
  ordered : sites.Pairwise Site.Before

variable {α : Type} {b : Board} {p : Position} {n row : Nat}

theorem tableEntry_of_getElem? {table : List (List (Option α))} {entries : List (Option α)}
    {a : Option α} (hrow : table[p.row]? = some entries) (hcol : entries[p.col]? = some a) :
    tableEntry table p = a := by
  rw [tableEntry, hrow, Option.getD_some, hcol, Option.join_some]

theorem getElem?_flatten {table : List (List α)} {cols : Nat} {entries : List α} {i j : Nat}
    (h : ∀ line ∈ table, line.length = cols) (hi : table[i]? = some entries) (hj : j < cols) :
    table.flatten[i * cols + j]? = entries[j]? := by
  induction table generalizing i with
  | nil => cases hi
  | cons line table ih =>
    obtain ⟨hline, htable⟩ := List.forall_mem_cons.mp h
    rw [List.flatten_cons]
    cases i with
    | zero =>
      cases hi
      rw [Nat.zero_mul, Nat.zero_add, List.getElem?_append_left (hline ▸ hj)]
    | succ i =>
      have hplace : (i + 1) * cols + j = line.length + (i * cols + j) := by
        rw [hline, Nat.succ_mul]
        omega
      rw [hplace, List.getElem?_append_right (Nat.le_add_right ..), Nat.add_sub_cancel_left]
      exact ih htable hi

theorem Shaped.rowMajor {table : List (List (Option α))} {rows cols : Nat}
    (h : Shaped table rows cols) : RowMajor table rows cols where
  length_eq := by
    rw [List.length_flatten, List.map_eq_replicate_iff.mpr h.lines, List.sum_replicate_nat,
      h.length_eq]
  entry p hrow hcol := by
    rw [← h.length_eq] at hrow
    have hentries := List.getElem?_eq_getElem hrow
    have hlength : p.col < table[p.row].length := by
      rwa [h.lines _ (List.getElem_mem hrow)]
    have hentry := List.getElem?_eq_getElem hlength
    rw [getElem?_flatten h.lines hentries hcol, tableEntry_of_getElem? hentries hentry, hentry]

theorem Shaped.ext {table table' : List (List (Option α))} {rows cols : Nat}
    (h : Shaped table rows cols) (h' : Shaped table' rows cols)
    (hentry : ∀ p : Position, p.row < rows → p.col < cols →
      tableEntry table p = tableEntry table' p) : table = table' := by
  have hlength : table.length = table'.length := h.length_eq.trans h'.length_eq.symm
  refine List.ext_getElem hlength fun i hi hi' => ?_
  have hline := h.lines _ (List.getElem_mem hi)
  have hline' := h'.lines _ (List.getElem_mem hi')
  refine List.ext_getElem (hline.trans hline'.symm) fun j hj hj' => ?_
  have hentries := hentry ⟨i, j⟩ (h.length_eq ▸ hi) (hline ▸ hj)
  rwa [tableEntry_of_getElem? (List.getElem?_eq_getElem hi) (List.getElem?_eq_getElem hj),
    tableEntry_of_getElem? (List.getElem?_eq_getElem hi') (List.getElem?_eq_getElem hj')] at hentries

namespace Board

private def sitesAt (b : Board) (p : Position) : List Site :=
  [Direction.across, .down].filterMap fun d => (b.relation d p).map fun r => ⟨p, d, r⟩

private def sites (b : Board) : List Site := (positions b.size).flatMap b.sitesAt

private theorem inequalities_eq_sites (b : Board) : b.inequalities = b.sites.map Site.pair := by
  rw [inequalities, sites, List.map_flatMap]
  congr 1
  funext p
  rw [sitesAt, List.map_filterMap]
  congr 1
  funext d
  rw [Option.map_map]
  rfl

private theorem mem_sitesAt {s : Site} :
    s ∈ b.sitesAt p ↔ s.position = p ∧ b.relation s.direction p = some s.relation := by
  simp only [sitesAt, List.mem_filterMap, Option.map_eq_some_iff]
  constructor
  · rintro ⟨d, -, r, hr, rfl⟩
    exact ⟨rfl, hr⟩
  · rintro ⟨rfl, hr⟩
    refine ⟨s.direction, ?_, s.relation, hr, rfl⟩
    cases s.direction <;> simp

private theorem pairwise_sitesAt (b : Board) (p : Position) :
    (b.sitesAt p).Pairwise Site.Before := by
  rw [sitesAt, List.pairwise_filterMap]
  refine List.pairwise_pair.mpr fun s hs t ht => ?_
  obtain ⟨r, -, rfl⟩ := Option.map_eq_some_iff.mp hs
  obtain ⟨r', -, rfl⟩ := Option.map_eq_some_iff.mp ht
  exact .inr ⟨rfl, rfl, rfl⟩

private theorem pairwise_positions (n : Nat) : (positions n).Pairwise Position.Before := by
  rw [positions, List.pairwise_flatMap]
  constructor
  · intro row _
    rw [List.pairwise_map]
    exact List.pairwise_lt_range.imp fun hcol => .inr ⟨rfl, hcol⟩
  · apply List.pairwise_lt_range.imp
    intro row row' hrow p hp q hq
    obtain ⟨col, -, rfl⟩ := List.mem_map.mp hp
    obtain ⟨col', -, rfl⟩ := List.mem_map.mp hq
    exact .inl hrow

theorem Proper.exists_inOrder (h : b.Proper) :
    ∃ sites, b.InOrder sites ∧ b.inequalities = sites.map Site.pair := by
  refine ⟨b.sites, ⟨fun s => ?_, ?_⟩, inequalities_eq_sites b⟩
  · simp only [sites, List.mem_flatMap, mem_sitesAt]
    constructor
    · rintro ⟨p, -, rfl, hr⟩
      exact hr
    · intro hr
      obtain ⟨hrow, hcol, -⟩ := h.of_relation hr
      exact ⟨s.position, mem_positions.mpr ⟨hrow, hcol⟩, rfl, hr⟩
  · rw [sites, List.pairwise_flatMap]
    refine ⟨fun p _ => pairwise_sitesAt b p, (pairwise_positions b.size).imp ?_⟩
    intro p q hbefore s hs t ht
    obtain ⟨rfl, -⟩ := mem_sitesAt.mp hs
    obtain ⟨rfl, -⟩ := mem_sitesAt.mp ht
    exact .inl hbefore

end Board

end FiniteDomain.Futoshiki
