import FiniteDomain.Proofs.Fault
import FiniteDomain.Proofs.Futoshiki.Shape
import FiniteDomain.Proofs.Text.Numeral
import FiniteDomain.Proofs.Text.Words
/-!
# The format of a board's text

What may stand where in the lines of a board, what is wrong with a text that is not in the format,
and which board a text in the format describes. Lines, tokens, rows and columns count from zero.
-/
namespace FiniteDomain.Futoshiki

/-- What a place in the text of a board is for. -/
inductive Slot where
  | cell
  | relation (d : Direction)

/-- Lines of cells, with relations across in between, alternate with lines of relations down. -/
def slot (line token : Nat) : Slot :=
  if line % 2 = 1 then .relation .down
  else if token % 2 = 0 then .cell
  else .relation .across

def width (n line : Nat) : Nat := if line % 2 = 1 then n else 2 * n - 1

inductive CellToken (n : Nat) : List Char → Option Int → Prop
  | point : CellToken n ['.'] none
  | zero : CellToken n ['0'] none
  | value {token : List Char} {a : Int} :
      Text.Numeral64 token a → 1 ≤ a → a ≤ n → CellToken n token (some a)

inductive RelationToken : Direction → List Char → Option Relation → Prop
  | point (d : Direction) : RelationToken d ['.'] none
  | acrossLess : RelationToken .across ['<'] (some .less)
  | acrossGreater : RelationToken .across ['>'] (some .greater)
  | downLess : RelationToken .down ['^'] (some .less)
  | downGreater : RelationToken .down ['v'] (some .greater)

/-- The token can stand at such a place. -/
def Slot.Takes (n : Nat) (token : List Char) : Slot → Prop
  | cell => ∃ c, CellToken n token c
  | relation d => ∃ r, RelationToken d token r

/-- What is wrong with a token at such a place of a line. -/
inductive TokenFault (n line : Nat) (token : List Char) : Slot → ParseError → Prop
  | cell : token ≠ ['.'] → (∀ a, ¬Text.Numeral64 token a) →
      TokenFault n line token .cell (.unknownToken line (String.ofList token))
  | value {a : Int} : token ≠ ['0'] → Text.Numeral64 token a → ¬(1 ≤ a ∧ a ≤ n) →
      TokenFault n line token .cell (.valueOutOfRange line a n)
  | relation {d : Direction} : (∀ r, ¬RelationToken d token r) →
      TokenFault n line token (.relation d) (.unknownToken line (String.ofList token))

/-- What is wrong with the line `k` of a board: its number of tokens, before any of its tokens. -/
inductive LineFault (n k : Nat) (l : TokenLine) : ParseError → Prop
  | count : l.tokens.length ≠ width n k →
      LineFault n k l (.wrongTokenCount l.number (width n k) l.tokens.length)
  | token {e : ParseError} : l.tokens.length = width n k →
      FirstFault (fun i token => TokenFault n l.number token (slot k i)) l.tokens e →
      LineFault n k l e

/-- The line has as many tokens as it should, and each can stand where it stands. -/
structure LineWritten (n k : Nat) (l : TokenLine) : Prop where
  length_eq : l.tokens.length = width n k
  takes : ∀ i token, l.tokens[i]? = some token → (slot k i).Takes n token

namespace Board

/-- The lines are those of a board of size `n`. -/
structure Written (n : Nat) (lines : List TokenLine) : Prop where
  pos : 0 < n
  length_eq : lines.length = 2 * n - 1
  line : ∀ k l, lines[k]? = some l → LineWritten n k l

/-- What is wrong with some lines. The first fixes the size, only as many as a board of this size
has are looked at, and their number comes last. -/
inductive Fault : List TokenLine → ParseError → Prop
  | empty : Fault [] .emptyBoard
  | even {first : TokenLine} {rest : List TokenLine} : first.tokens.length % 2 = 0 →
      Fault (first :: rest) (.evenTokenCount first.number first.tokens.length)
  | line {n : Nat} {first : TokenLine} {rest : List TokenLine} {e : ParseError} :
      first.tokens.length + 1 = 2 * n →
      FirstFault (LineFault n) ((first :: rest).take (2 * n - 1)) e → Fault (first :: rest) e
  | count {n : Nat} {first : TokenLine} {rest : List TokenLine} :
      first.tokens.length + 1 = 2 * n →
      (∀ e, ¬FirstFault (LineFault n) ((first :: rest).take (2 * n - 1)) e) →
      (first :: rest).length ≠ 2 * n - 1 →
      Fault (first :: rest) (.wrongLineCount (2 * n - 1) (first :: rest).length)

def tokenAt (lines : List TokenLine) (k i : Nat) : Option (List Char) :=
  lines[k]? >>= fun l => l.tokens[i]?

/-- Every entry of the board is what its token says. -/
structure Describes (lines : List TokenLine) (b : Board) : Prop where
  cell : ∀ p : Position, p.row < b.size → p.col < b.size →
    ∃ token, tokenAt lines (2 * p.row) (2 * p.col) = some token ∧ CellToken b.size token (b.cell p)
  across : ∀ p : Position, p.row < b.size → p.col + 1 < b.size →
    ∃ token, tokenAt lines (2 * p.row) (2 * p.col + 1) = some token ∧
      RelationToken .across token (b.relation .across p)
  down : ∀ p : Position, p.row + 1 < b.size → p.col < b.size →
    ∃ token, tokenAt lines (2 * p.row + 1) p.col = some token ∧
      RelationToken .down token (b.relation .down p)

end Board

variable {n line k i : Nat} {token : List Char} {d : Direction} {s : Slot} {l : TokenLine}
  {e : ParseError}

@[simp] theorem slot_add_two (k i : Nat) : slot (k + 2) i = slot k i := by
  rw [slot, slot, Nat.add_mod_right]

theorem slot_cells (hk : k % 2 = 0) : slot k i = if i % 2 = 0 then .cell else .relation .across := by
  rw [slot, if_neg (by omega)]

theorem slot_cell (row col : Nat) : slot (2 * row) (2 * col) = .cell := by
  rw [slot_cells (Nat.mul_mod_right 2 row), if_pos (Nat.mul_mod_right 2 col)]

theorem slot_across (row col : Nat) : slot (2 * row) (2 * col + 1) = .relation .across := by
  rw [slot_cells (Nat.mul_mod_right 2 row), if_neg (by omega)]

theorem slot_down (hk : k % 2 = 1) : slot k i = .relation .down := if_pos hk

@[simp] theorem width_add_two (n k : Nat) : width n (k + 2) = width n k := by
  rw [width, width, Nat.add_mod_right]

theorem width_cells (hk : k % 2 = 0) : width n k = 2 * n - 1 := if_neg (by omega)

theorem width_down (hk : k % 2 = 1) : width n k = n := if_pos hk

theorem ne_point_of_numeral {a : Int} (h : Text.Numeral64 token a) : token ≠ ['.'] := by
  rintro rfl
  have hnone : Text.readInt64 ['.'] = none := by decide
  cases hnone.symm.trans (Text.readInt64_eq_some_iff.mpr h)

theorem numeral_zero : Text.Numeral64 ['0'] 0 := Text.readInt64_eq_some_iff.mp (by decide)

theorem CellToken.not_fault {c : Option Int} (h : CellToken n token c) :
    ¬TokenFault n line token .cell e := by
  intro hfault
  cases h with
  | point =>
    cases hfault with
    | cell hne => exact hne rfl
    | value hne hnumeral => exact ne_point_of_numeral hnumeral rfl
  | zero =>
    cases hfault with
    | cell hne hnone => exact hnone 0 numeral_zero
    | value hne => exact hne rfl
  | value hnumeral hlower hupper =>
    cases hfault with
    | cell hne hnone => exact hnone _ hnumeral
    | value hne hnumeral' hrange => exact hrange (hnumeral'.unique hnumeral ▸ ⟨hlower, hupper⟩)

theorem Slot.takes_iff : s.Takes n token ↔ ∀ e, ¬TokenFault n line token s e := by
  cases s with
  | cell =>
    constructor
    · rintro ⟨c, hc⟩ e
      exact hc.not_fault
    · intro h
      by_cases hpoint : token = ['.']
      · exact ⟨none, hpoint ▸ .point⟩
      by_cases hzero : token = ['0']
      · exact ⟨none, hzero ▸ .zero⟩
      obtain ⟨a, ha⟩ : ∃ a, Text.Numeral64 token a := by
        by_contra hnone
        exact h _ (.cell hpoint (not_exists.mp hnone))
      have hrange : 1 ≤ a ∧ a ≤ n := by
        by_contra hrange
        exact h _ (.value hzero ha hrange)
      exact ⟨some a, .value ha hrange.1 hrange.2⟩
  | relation d =>
    constructor
    · rintro ⟨r, hr⟩ e hfault
      cases hfault with
      | relation hnone => exact hnone r hr
    · intro h
      by_contra hnone
      exact h _ (.relation (not_exists.mp hnone))

theorem lineFault_iff :
    LineFault n k l e ↔
      (l.tokens.length ≠ width n k ∧
        e = .wrongTokenCount l.number (width n k) l.tokens.length) ∨
      (l.tokens.length = width n k ∧
        FirstFault (fun i token => TokenFault n l.number token (slot k i)) l.tokens e) := by
  constructor
  · intro h
    cases h with
    | count hne => exact .inl ⟨hne, rfl⟩
    | token heq hfirst => exact .inr ⟨heq, hfirst⟩
  · rintro (⟨hne, rfl⟩ | ⟨heq, hfirst⟩)
    · exact .count hne
    · exact .token heq hfirst

theorem lineFault_add_two (n k : Nat) : LineFault n (k + 2) = LineFault n k := by
  funext l e
  simp only [lineFault_iff, slot_add_two, width_add_two]

theorem lineWritten_iff : LineWritten n k l ↔ ∀ e, ¬LineFault n k l e := by
  constructor
  · intro h e hfault
    cases hfault with
    | count hne => exact hne h.length_eq
    | token _ hfirst =>
      refine forall_not_firstFault.mpr (fun i token htoken => ?_) e hfirst
      exact Slot.takes_iff.mp (h.takes i token htoken)
  · intro h
    have hlength : l.tokens.length = width n k := by
      by_contra hne
      exact h _ (.count hne)
    have hnone := forall_not_firstFault.mp fun e hfirst => h e (.token hlength hfirst)
    exact ⟨hlength, fun i token htoken => Slot.takes_iff.mpr (hnone i token htoken)⟩

end FiniteDomain.Futoshiki
