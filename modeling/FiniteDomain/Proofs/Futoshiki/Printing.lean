import FiniteDomain.Futoshiki.Board.Printer
import FiniteDomain.Proofs.Futoshiki.Layout
import FiniteDomain.Proofs.Text.Numeral
import FiniteDomain.Proofs.Text.Words
/-!
# The printed board

The words of a printed line are its values and signs. They consist of digits and a few marks, so
that no character of a printed board is taken for something else.
-/
namespace FiniteDomain.Futoshiki

/-- A character of a value or of a sign. -/
def isMark (c : Char) : Bool := c.isDigit || ['-', '.', '<', '>', '^', 'v'].contains c

namespace Board

def cellTokens (b : Board) (value : Position → Int) (row : Nat) : List (List Char) :=
  Text.intDigits (value ⟨row, 0⟩) :: (List.range (b.size - 1)).flatMap fun col =>
    [[sign .across (b.relation .across ⟨row, col⟩)], Text.intDigits (value ⟨row, col + 1⟩)]

def downTokens (b : Board) (row : Nat) : List (List Char) :=
  (List.range b.size).map fun col => [sign .down (b.relation .down ⟨row, col⟩)]

end Board

variable {α : Type} {b : Board} {value : Position → Int} {row col n k : Nat} {c : Char} {a : Int}

theorem isBlank_of_isMark (h : isMark c = true) : Text.isBlank c = false := by
  rw [isMark, Bool.or_eq_true_iff] at h
  rcases h with hdigit | hmark
  · have hrange : 48 ≤ c.toNat ∧ c.toNat ≤ 57 := by
      simpa [Char.isDigit, UInt32.le_iff_toNat_le] using hdigit
    simp only [Text.isBlank, Bool.or_eq_false_iff, Bool.and_eq_false_iff, decide_eq_false_iff_not]
    omega
  · simp only [List.contains_eq_mem, List.mem_cons, List.not_mem_nil, or_false,
      decide_eq_true_eq] at hmark
    rcases hmark with rfl | rfl | rfl | rfl | rfl | rfl <;> decide

theorem isMark_of_isDigit (h : c.isDigit = true) : isMark c = true := by rw [isMark, h, Bool.true_or]

theorem isMark_of_intDigits (h : c ∈ Text.intDigits a) : isMark c = true := by
  cases a with
  | ofNat n => exact isMark_of_isDigit ((Text.digits_natDigits n).isDigit c h)
  | negSucc n =>
    rcases List.mem_cons.mp h with rfl | hdigits
    · decide
    · exact isMark_of_isDigit ((Text.digits_natDigits (n + 1)).isDigit c hdigits)

theorem isMark_sign (d : Direction) (r : Option Relation) : isMark (sign d r) = true := by
  cases d <;> rcases r with _ | _ | _ <;> decide

private theorem isMark_of_renderAfter {cols : List Nat} (h : c ∈ b.renderAfter value row cols) :
    c = ' ' ∨ isMark c = true := by
  induction cols with
  | nil => cases h
  | cons col cols ih =>
    simp only [Board.renderAfter, List.mem_append, List.mem_cons, List.not_mem_nil, or_false] at h
    rcases h with ((hblank | rfl | hblank) | hvalue) | hafter
    · exact .inl hblank
    · exact .inr (isMark_sign _ _)
    · exact .inl hblank
    · exact .inr (isMark_of_intDigits hvalue)
    · exact ih hafter

theorem isMark_of_renderCells (h : c ∈ b.renderCells value row) : c = ' ' ∨ isMark c = true := by
  rw [Board.renderCells] at h
  split at h
  · cases h
  · rcases List.mem_append.mp h with hvalue | hafter
    · exact .inr (isMark_of_intDigits hvalue)
    · exact isMark_of_renderAfter hafter

private theorem mem_of_mem_intercalate {sep : List Char} {parts : List (List Char)}
    (h : c ∈ sep.intercalate parts) : c ∈ sep ∨ ∃ part ∈ parts, c ∈ part := by
  induction parts with
  | nil => cases h
  | cons part parts ih =>
    cases parts with
    | nil =>
      rw [List.intercalate_singleton] at h
      exact .inr ⟨part, by simp, h⟩
    | cons next parts =>
      rw [List.intercalate_cons_cons, List.mem_append, List.mem_append] at h
      rcases h with (hpart | hsep) | hrest
      · exact .inr ⟨part, by simp, hpart⟩
      · exact .inl hsep
      · rcases ih hrest with hsep | ⟨part', hmem, hc⟩
        · exact .inl hsep
        · exact .inr ⟨part', List.mem_cons_of_mem _ hmem, hc⟩

theorem isMark_of_renderDown (h : c ∈ b.renderDown row) : c = ' ' ∨ isMark c = true := by
  rcases mem_of_mem_intercalate h with hblank | ⟨part, hpart, hc⟩
  · simp only [List.mem_cons, List.not_mem_nil, or_false, or_self] at hblank
    exact .inl hblank
  · obtain ⟨col, -, rfl⟩ := List.mem_map.mp hpart
    rw [List.mem_singleton.mp hc]
    exact .inr (isMark_sign _ _)

theorem isMark_of_renderLines {line : List Char} (hline : line ∈ b.renderLines value)
    (h : c ∈ line) : c = ' ' ∨ isMark c = true := by
  obtain ⟨row, -, hrow⟩ := List.mem_flatMap.mp hline
  split at hrow
  · rcases List.mem_cons.mp hrow with rfl | hdown
    · exact isMark_of_renderCells h
    · exact isMark_of_renderDown (List.mem_singleton.mp hdown ▸ h)
  · exact isMark_of_renderCells (List.mem_singleton.mp hrow ▸ h)

theorem words_intDigits (a : Int) : Text.words (Text.intDigits a) = [Text.intDigits a] :=
  Text.words_of_all (Text.numeral_intDigits a).ne_nil fun _ hc =>
    isBlank_of_isMark (isMark_of_intDigits hc)

theorem words_sign (d : Direction) (r : Option Relation) :
    Text.words [sign d r] = [[sign d r]] := by
  refine Text.words_of_all (List.cons_ne_nil _ _) fun c hc => ?_
  rw [List.mem_singleton.mp hc]
  exact isBlank_of_isMark (isMark_sign d r)

private theorem words_append_renderAfter (cols : List Nat) :
    Text.words (Text.intDigits a ++ b.renderAfter value row cols) =
      Text.intDigits a :: cols.flatMap fun col =>
        [[sign .across (b.relation .across ⟨row, col⟩)], Text.intDigits (value ⟨row, col + 1⟩)] := by
  induction cols generalizing a with
  | nil => rw [Board.renderAfter, List.append_nil, words_intDigits, List.flatMap_nil]
  | cons col cols ih =>
    have hsplit : b.renderAfter value row (col :: cols) =
        ' ' :: ([sign .across (b.relation .across ⟨row, col⟩)] ++
          ' ' :: (Text.intDigits (value ⟨row, col + 1⟩) ++ b.renderAfter value row cols)) := rfl
    rw [hsplit, Text.words_append rfl, words_intDigits, Text.words_append rfl, words_sign, ih]
    rfl

theorem words_renderCells (hpos : 0 < b.size) (value : Position → Int) (row : Nat) :
    Text.words (b.renderCells value row) = b.cellTokens value row := by
  rw [Board.renderCells, if_neg hpos.ne']
  exact words_append_renderAfter _

private theorem words_intercalate {parts : List (List Char)}
    (h : ∀ part ∈ parts, Text.words part = [part]) :
    Text.words ([' ', ' ', ' '].intercalate parts) = parts := by
  induction parts with
  | nil => rfl
  | cons part parts ih =>
    obtain ⟨hpart, hparts⟩ := List.forall_mem_cons.mp h
    cases parts with
    | nil => rwa [List.intercalate_singleton]
    | cons next parts =>
      rw [List.intercalate_cons_cons, List.append_assoc]
      change Text.words (part ++ ' ' :: ' ' :: ' ' :: _) = _
      rw [Text.words_append rfl, hpart, Text.words_cons_of_blank rfl, Text.words_cons_of_blank rfl]
      exact congrArg (part :: ·) (ih hparts)

theorem words_renderDown (b : Board) (row : Nat) :
    Text.words (b.renderDown row) = b.downTokens row := by
  refine words_intercalate fun part hpart => ?_
  obtain ⟨col, -, rfl⟩ := List.mem_map.mp hpart
  exact words_sign _ _

theorem getElem?_flatMap_pair {f g : Nat → α} (hk : k < n) :
    ((List.range n).flatMap fun i => [f i, g i])[2 * k]? = some (f k) ∧
      ((List.range n).flatMap fun i => [f i, g i])[2 * k + 1]? = some (g k) := by
  have hlength : ∀ line ∈ (List.range n).map fun i => [f i, g i], line.length = 2 := by
    intro line hline
    obtain ⟨i, -, rfl⟩ := List.mem_map.mp hline
    rfl
  have hget : ((List.range n).map fun i => [f i, g i])[k]? = some [f k, g k] := by simp [hk]
  rw [List.flatMap_def, Nat.mul_comm]
  exact ⟨getElem?_flatten hlength hget (j := 0) (by decide), getElem?_flatten hlength hget (by decide)⟩

theorem Board.length_cellTokens (hpos : 0 < b.size) :
    (b.cellTokens value row).length = 2 * b.size - 1 := by
  rw [cellTokens, List.length_cons, List.length_flatMap]
  simp
  omega

theorem Board.cellTokens_cell (hcol : col < b.size) :
    (b.cellTokens value row)[2 * col]? = some (Text.intDigits (value ⟨row, col⟩)) := by
  cases col with
  | zero => rfl
  | succ col =>
    have hcol' : col < b.size - 1 := by omega
    exact (getElem?_flatMap_pair (f := fun col => [sign .across (b.relation .across ⟨row, col⟩)])
      (g := fun col => Text.intDigits (value ⟨row, col + 1⟩)) hcol').2

theorem Board.cellTokens_sign (hcol : col + 1 < b.size) :
    (b.cellTokens value row)[2 * col + 1]? =
      some [sign .across (b.relation .across ⟨row, col⟩)] := by
  have hcol' : col < b.size - 1 := by omega
  exact (getElem?_flatMap_pair (f := fun col => [sign .across (b.relation .across ⟨row, col⟩)])
    (g := fun col => Text.intDigits (value ⟨row, col + 1⟩)) hcol').1

theorem Board.downTokens_sign (hcol : col < b.size) :
    (b.downTokens row)[col]? = some [sign .down (b.relation .down ⟨row, col⟩)] := by
  simp [downTokens, hcol]

end FiniteDomain.Futoshiki
