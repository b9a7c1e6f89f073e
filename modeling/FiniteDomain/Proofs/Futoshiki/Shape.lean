import FiniteDomain.Futoshiki.Board.Parser
import FiniteDomain.Proofs.Run
/-!
# The shape of a board

A board that is read has as many rows and columns as its size says, entries between all neighbours
and nowhere else, and no given value beyond its size.
-/
namespace FiniteDomain.Futoshiki

/-- The table has so many lines of so many entries. -/
structure Shaped {α : Type} (table : List (List α)) (rows cols : Nat) : Prop where
  length_eq : table.length = rows
  lines : ∀ line ∈ table, line.length = cols

/-- The tables of the board have the shape that its size demands. -/
structure Board.Proper (b : Board) : Prop where
  pos : 0 < b.size
  cells : Shaped b.cells b.size b.size
  across : Shaped b.across b.size (b.size - 1)
  down : Shaped b.down (b.size - 1) b.size
  given : ∀ line ∈ b.cells, ∀ a, some a ∈ line → 1 ≤ a ∧ a ≤ b.size

variable {α : Type} {size line n : Nat} {b : Board} {p : Position} {d : Direction}

theorem Shaped.cons {table : List (List α)} {rows cols : Nat} {entries : List α}
    (h : Shaped table rows cols) (hentries : entries.length = cols) :
    Shaped (entries :: table) (rows + 1) cols where
  length_eq := congrArg (· + 1) h.length_eq
  lines := List.forall_mem_cons.mpr ⟨hentries, h.lines⟩

theorem shaped_nil (cols : Nat) : Shaped ([] : List (List α)) 0 cols := ⟨rfl, by simp⟩

theorem Shaped.of_tableEntry {table : List (List (Option α))} {rows cols : Nat} {a : α}
    (h : Shaped table rows cols) (ha : tableEntry table p = some a) :
    p.row < rows ∧ p.col < cols ∧ ∃ line ∈ table, some a ∈ line := by
  rw [tableEntry, Option.join_eq_some_iff] at ha
  cases hline : table[p.row]? with
  | none =>
    rw [hline] at ha
    cases ha
  | some line =>
    rw [hline, Option.getD_some] at ha
    obtain ⟨hrow, -⟩ := List.getElem?_eq_some_iff.mp hline
    obtain ⟨hcol, -⟩ := List.getElem?_eq_some_iff.mp ha
    have hmem := List.mem_of_getElem? hline
    rw [h.lines line hmem] at hcol
    exact ⟨h.length_eq ▸ hrow, hcol, line, hmem, List.mem_of_getElem? ha⟩

namespace Board

theorem Proper.of_cell (h : b.Proper) {a : Int} (ha : b.cell p = some a) :
    p.row < b.size ∧ p.col < b.size ∧ 1 ≤ a ∧ a ≤ b.size := by
  obtain ⟨hrow, hcol, line, hline, hmem⟩ := h.cells.of_tableEntry ha
  exact ⟨hrow, hcol, h.given line hline a hmem⟩

theorem Proper.of_relation (h : b.Proper) {r : Relation} (hr : b.relation d p = some r) :
    p.row < b.size ∧ p.col < b.size ∧
      (neighbour p d).row < b.size ∧ (neighbour p d).col < b.size := by
  cases d with
  | across =>
    obtain ⟨hrow, hcol, -⟩ := h.across.of_tableEntry hr
    exact ⟨hrow, by omega, hrow, Nat.add_lt_of_lt_sub hcol⟩
  | down =>
    obtain ⟨hrow, hcol, -⟩ := h.down.of_tableEntry hr
    exact ⟨by omega, hcol, Nat.add_lt_of_lt_sub hrow, hcol⟩

theorem readCell_range {token : List Char} {a : Int} (h : readCell size line token = .ok (some a)) :
    1 ≤ a ∧ a ≤ size := by
  unfold readCell at h
  split at h
  · cases h
  · split at h
    · cases h
    · split at h
      · next hrange =>
        cases h
        exact hrange
      · cases h

theorem readCells_shape {tokens : List (List Char)} {cells : List (Option Int)}
    {relations : List (Option Relation)} (h : readCells size line tokens = .ok (cells, relations))
    (hlength : tokens.length = 2 * n + 1) :
    cells.length = n + 1 ∧ relations.length = n ∧ ∀ a, some a ∈ cells → 1 ≤ a ∧ a ≤ size := by
  induction tokens using readCells.induct generalizing cells relations n with
  | case1 => cases hlength
  | case2 token =>
    obtain ⟨cell, hcell, hrest⟩ := bind_eq_ok.mp h
    cases hrest
    obtain rfl : n = 0 := by
      rw [List.length_singleton] at hlength
      omega
    refine ⟨rfl, rfl, fun a ha => ?_⟩
    exact readCell_range (List.mem_singleton.mp ha ▸ hcell)
  | case3 token between rest ih =>
    obtain ⟨cell, hcell, h⟩ := bind_eq_ok.mp h
    obtain ⟨relation, -, h⟩ := bind_eq_ok.mp h
    obtain ⟨⟨cells', relations'⟩, hrest, h⟩ := bind_eq_ok.mp h
    cases h
    rw [List.length_cons, List.length_cons] at hlength
    cases n with
    | zero => omega
    | succ n =>
      obtain ⟨hcells, hrelations, hrange⟩ := ih (n := n) hrest (by omega)
      refine ⟨congrArg (· + 1) hcells, congrArg (· + 1) hrelations, fun a ha => ?_⟩
      rcases List.mem_cons.mp ha with hhead | htail
      · exact readCell_range (hhead ▸ hcell)
      · exact hrange a htail

theorem expectTokens_eq_ok_iff {l : TokenLine} {expected : Nat} :
    expectTokens l expected = .ok () ↔ l.tokens.length = expected := by
  rw [expectTokens]
  split
  · next h => exact iff_of_true rfl h
  · next h => exact iff_of_false (fun he => nomatch he) h

theorem readCellLine_shape {l : TokenLine} {cells : List (Option Int)}
    {relations : List (Option Relation)} (hpos : 0 < size)
    (h : readCellLine size l = .ok (cells, relations)) :
    cells.length = size ∧ relations.length = size - 1 ∧ ∀ a, some a ∈ cells → 1 ≤ a ∧ a ≤ size := by
  obtain ⟨_, hexpect, hcells⟩ := bind_eq_ok.mp h
  have hlength := expectTokens_eq_ok_iff.mp hexpect
  obtain ⟨n, rfl⟩ : ∃ n, size = n + 1 := ⟨size - 1, by omega⟩
  exact readCells_shape hcells (by omega)

theorem readDownLine_shape {l : TokenLine} {relations : List (Option Relation)}
    (h : readDownLine size l = .ok relations) : relations.length = size := by
  obtain ⟨_, hexpect, hrelations⟩ := bind_eq_ok.mp h
  rw [← expectTokens_eq_ok_iff.mp hexpect]
  exact (mapM_eq_ok.mp hrelations).length_eq.symm

/-- One line more of cells than of relations between rows. -/
theorem readLines_shape {lines : List TokenLine} (hpos : 0 < size)
    (h : readLines size lines = .ok b) (hlength : lines.length = 2 * n + 1) :
    b.size = size ∧ Shaped b.cells (n + 1) size ∧ Shaped b.across (n + 1) (size - 1) ∧
      Shaped b.down n size ∧ ∀ line ∈ b.cells, ∀ a, some a ∈ line → 1 ≤ a ∧ a ≤ size := by
  induction lines using readLines.induct generalizing b n with
  | case1 => cases hlength
  | case2 l =>
    obtain ⟨⟨cells, across⟩, hline, h⟩ := bind_eq_ok.mp h
    cases h
    obtain rfl : n = 0 := by
      rw [List.length_singleton] at hlength
      omega
    obtain ⟨hcells, hacross, hrange⟩ := readCellLine_shape hpos hline
    exact ⟨rfl, (shaped_nil size).cons hcells, (shaped_nil _).cons hacross, shaped_nil size,
      List.forall_mem_singleton.mpr hrange⟩
  | case3 l m rest ih =>
    obtain ⟨⟨cells, across⟩, hline, h⟩ := bind_eq_ok.mp h
    obtain ⟨down, hdown, h⟩ := bind_eq_ok.mp h
    obtain ⟨below, hbelow, h⟩ := bind_eq_ok.mp h
    cases h
    rw [List.length_cons, List.length_cons] at hlength
    cases n with
    | zero => omega
    | succ n =>
      obtain ⟨hcells, hacross, hrange⟩ := readCellLine_shape hpos hline
      obtain ⟨-, hcells', hacross', hdown', hrange'⟩ := ih (n := n) hbelow (by omega)
      exact ⟨rfl, hcells'.cons hcells, hacross'.cons hacross,
        hdown'.cons (readDownLine_shape hdown), List.forall_mem_cons.mpr ⟨hrange, hrange'⟩⟩

theorem proper_of_parse {text : String} (h : parse text = .ok b) : b.Proper := by
  rw [parse] at h
  cases hlines : significantLines text.toList with
  | nil =>
    rw [hlines] at h
    cases h
  | cons first rest =>
    rw [hlines, ofLines] at h
    split at h
    · cases h
    · next hodd =>
      obtain ⟨board, hboard, h⟩ := bind_eq_ok.mp h
      split at h
      · next hcount =>
        cases h
        obtain ⟨n, hn⟩ : ∃ n, (first.tokens.length + 1) / 2 = n + 1 :=
          ⟨(first.tokens.length + 1) / 2 - 1, by omega⟩
        have hlength : (first :: rest).length = 2 * n + 1 := by
          rw [List.length_cons]
          omega
        have hpos : 0 < n + 1 := Nat.succ_pos n
        rw [hn, List.take_of_length_le (by omega)] at hboard
        obtain ⟨hsize, hcells, hacross, hdown, hgiven⟩ := readLines_shape hpos hboard hlength
        rw [← hsize] at hcells hacross hdown hgiven
        have hbelow : b.size - 1 = n := by omega
        exact ⟨by omega, hcells, hacross, hbelow.symm ▸ hdown, hgiven⟩
      · cases h

end Board

end FiniteDomain.Futoshiki
