import FiniteDomain.Futoshiki.Report
import FiniteDomain.Proofs.Futoshiki.Printing
/-!
# What is printed

The printed lines of a report are those of its solutions and of its verdict. A board is printed
without the sign that verdicts consist of, so that neither is taken for the other.
-/
namespace FiniteDomain.Futoshiki

def Line.text? : Line → Option String
  | text s => some s
  | event _ => none

def texts (lines : List Line) : List String := lines.filterMap Line.text?

variable {b : Board} {g : Grid b.size} {lines lines' : List Line}
  {value value' : Position → Int}

theorem Report.printed_eq (r : Report) : r.printed = texts r.lines := by
  apply List.filterMap_congr
  intro line _
  cases line <;> rfl

@[simp] theorem texts_append : texts (lines ++ lines') = texts lines ++ texts lines' :=
  List.filterMap_append

@[simp] theorem texts_text (s : String) : texts [.text s] = [s] := rfl

@[simp] theorem texts_eventLines (j : Journal) : texts (eventLines j) = [] := by
  rw [texts, eventLines, List.filterMap_map]
  exact List.filterMap_eq_nil_iff.mpr fun _ _ => rfl

private theorem renderAfter_congr (row : Nat) {cols : List Nat}
    (h : ∀ col ∈ cols, value ⟨row, col + 1⟩ = value' ⟨row, col + 1⟩) :
    b.renderAfter value row cols = b.renderAfter value' row cols := by
  induction cols with
  | nil => rfl
  | cons col cols ih =>
    rw [Board.renderAfter, Board.renderAfter, h col (by simp),
      ih fun col' hcol' => h col' (List.mem_cons_of_mem _ hcol')]

theorem renderLines_congr (h : ∀ p, p.row < b.size → p.col < b.size → value p = value' p) :
    b.renderLines value = b.renderLines value' := by
  have hcells : ∀ row < b.size, b.renderCells value row = b.renderCells value' row := by
    intro row hrow
    rw [Board.renderCells, Board.renderCells]
    by_cases hsize : b.size = 0
    · rw [if_pos hsize, if_pos hsize]
    · have hafter : ∀ col ∈ List.range (b.size - 1), value ⟨row, col + 1⟩ = value' ⟨row, col + 1⟩ := by
        intro col hcol
        exact h _ hrow (Nat.add_lt_of_lt_sub (List.mem_range.mp hcol))
      rw [if_neg hsize, if_neg hsize, h ⟨row, 0⟩ hrow (Nat.pos_of_ne_zero hsize),
        renderAfter_congr row hafter]
  rw [Board.renderLines, Board.renderLines, List.flatMap_def, List.flatMap_def]
  congr 1
  apply List.map_congr_left
  intro row hrow
  rw [hcells row (List.mem_range.mp hrow)]

theorem solutionLines_texts (b : Board) (s : Solution) :
    texts (solutionLines b s) = b.gridLines (Grid.ofSolution b.size s) := by
  have hlines : b.renderLines (Model.value b.size s) =
      b.renderLines (Grid.ofSolution b.size s).entry := by
    apply renderLines_congr
    intro p hrow hcol
    exact (Grid.entry_mk (Grid.ofSolution b.size s) ⟨p.row, hrow⟩ ⟨p.col, hcol⟩).symm
  rw [solutionLines, texts_append, texts_text, Board.gridLines, hlines]
  congr 1
  rw [texts, List.filterMap_map]
  change List.filterMap (some ∘ String.ofList) _ = _
  rw [List.filterMap_eq_map]

theorem entryLines_texts (b : Board) (j : Journal) :
    texts (entryLines b j) =
      (j.solutions.map (Grid.ofSolution b.size)).flatMap b.gridLines := by
  rw [entryLines, Journal.solutions]
  induction j.entries with
  | nil => rfl
  | cons e entries ih =>
    rw [List.flatMap_cons, texts_append, ih]
    cases e with
    | event e => rfl
    | solution s => rw [solutionLines_texts]; rfl

theorem enumeration_texts (b : Board) (j : Journal) (isComplete : Bool) :
    texts (entryLines b j ++ enumerationVerdict ⟨j.solutions, isComplete⟩) =
      (j.solutions.map (Grid.ofSolution b.size)).flatMap b.gridLines ++
        if j.solutions = [] then [if isComplete then unsatisfiableLine else unknownLine]
        else if isComplete then [completeLine] else [] := by
  rw [texts_append, entryLines_texts]
  congr 1
  cases hfound : j.solutions <;> cases isComplete <;> rfl

theorem equals_not_mem_gridLines {line : String} (h : line ∈ b.gridLines g) : '=' ∉ line.toList := by
  rcases List.mem_append.mp h with hline | hseparator
  · obtain ⟨cs, hcs, rfl⟩ := List.mem_map.mp hline
    rw [String.toList_ofList]
    intro hmem
    rcases isMark_of_renderLines hcs hmem with hblank | hmark
    · exact absurd hblank (by decide)
    · exact absurd hmark (by decide)
  · rw [List.mem_singleton.mp hseparator]
    decide

theorem not_mem_flatMap_gridLines (line : String) (hline : '=' ∈ line.toList)
    (gs : List (Grid b.size)) : line ∉ gs.flatMap b.gridLines := by
  intro h
  obtain ⟨g, -, hg⟩ := List.mem_flatMap.mp h
  exact equals_not_mem_gridLines hg hline

end FiniteDomain.Futoshiki
