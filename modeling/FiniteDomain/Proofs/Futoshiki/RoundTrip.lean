import FiniteDomain.Proofs.Futoshiki.Printing
import FiniteDomain.Proofs.Futoshiki.Reading
import Mathlib.Data.Nat.Find
/-!
# Printed boards are read back

A board that is printed with values in the range of its size is read back as the same board with
these values, where a zero is an empty cell. Any other value is reported where it stands.
-/
namespace FiniteDomain.Futoshiki.Board

variable {b b' : Board} {value : Position → Int} {row col k i n : Nat} {p q : Position}
  {l : TokenLine} {token : List Char} {d : Direction} {r : Option Relation} {c : Option Int} {a : Int}

/-- The value can stand in a board of size `n`, where a zero is an empty cell. -/
def InRange (n : Nat) (a : Int) : Prop := 0 ≤ a ∧ a ≤ n

theorem inRange_zero (n : Nat) : InRange n 0 := ⟨Int.le_refl 0, Int.natCast_nonneg n⟩

def printedLines (b : Board) (value : Position → Int) : List TokenLine :=
  significantLines (b.render value).toList

private theorem renderLines_eq (hsize : b.size = n + 1) :
    b.renderLines value =
      ((List.range n).flatMap fun row => [b.renderCells value row, b.renderDown row]) ++
        [b.renderCells value n] := by
  have hlast : ¬n + 1 < n + 1 := Nat.lt_irrefl _
  rw [renderLines, hsize, List.range_succ, List.flatMap_append, List.flatMap_singleton, if_neg hlast,
    List.flatMap_def, List.flatMap_def]
  congr 2
  apply List.map_congr_left
  intro row hrow
  rw [if_pos (Nat.succ_lt_succ (List.mem_range.mp hrow))]

private theorem isSignificant_of_marks {rest : List (List Char)} (hne : token ≠ [])
    (hmarks : ∀ c ∈ token, isMark c = true) : isSignificant (token :: rest) = true := by
  cases token with
  | nil => exact absurd rfl hne
  | cons c cs =>
    have hc : c ≠ '#' := by
      rintro rfl
      exact absurd (hmarks '#' (List.mem_cons_self ..)) (by decide)
    simpa [isSignificant] using hc

private theorem isSignificant_printed (hpos : 0 < b.size) {line : List Char}
    (hline : line ∈ b.renderLines value) : isSignificant (Text.words line) = true := by
  have hcells : ∀ row, isSignificant (Text.words (b.renderCells value row)) = true := by
    intro row
    rw [words_renderCells hpos]
    exact isSignificant_of_marks (Text.numeral_intDigits _).ne_nil fun c => isMark_of_intDigits
  have hdown : ∀ row, isSignificant (Text.words (b.renderDown row)) = true := by
    intro row
    obtain ⟨n, hn⟩ : ∃ n, b.size = n + 1 := ⟨b.size - 1, by omega⟩
    rw [words_renderDown, downTokens, hn, List.range_succ_eq_map, List.map_cons]
    refine isSignificant_of_marks (List.cons_ne_nil _ _) fun c hc => ?_
    rw [List.mem_singleton.mp hc]
    exact isMark_sign _ _
  obtain ⟨row, -, hrow⟩ := List.mem_flatMap.mp hline
  split at hrow
  · rcases List.mem_cons.mp hrow with rfl | hlast
    · exact hcells row
    · exact List.mem_singleton.mp hlast ▸ hdown row
  · exact List.mem_singleton.mp hrow ▸ hcells row

private theorem printedLines_eq (hpos : 0 < b.size) (value : Position → Int) :
    b.printedLines value =
      ((b.renderLines value).zipIdx 1).map fun (line, number) => ⟨number, Text.words line⟩ := by
  have hlines : Text.lines (b.render value).toList = b.renderLines value := by
    rw [render, String.toList_ofList]
    refine Text.lines_flatMap fun line hline c hc => ?_
    have hmark := isMark_of_renderLines hline hc
    constructor
    · rintro rfl
      exact absurd hmark (by decide)
    · rintro rfl
      exact absurd hmark (by decide)
  rw [printedLines, significantLines, hlines, ← List.filterMap_eq_map]
  apply List.filterMap_congr
  rintro ⟨line, number⟩ hmem
  exact if_pos (isSignificant_printed hpos (List.fst_mem_of_mem_zipIdx hmem))

private theorem getElem?_printedLines (hpos : 0 < b.size) (value : Position → Int) (k : Nat) :
    (b.printedLines value)[k]? =
      (b.renderLines value)[k]?.map fun line => ⟨k + 1, Text.words line⟩ := by
  rw [printedLines_eq hpos, List.getElem?_map, List.getElem?_zipIdx, Option.map_map, Nat.add_comm]
  rfl

theorem length_printedLines (hpos : 0 < b.size) : (b.printedLines value).length = 2 * b.size - 1 := by
  obtain ⟨n, hn⟩ : ∃ n, b.size = n + 1 := ⟨b.size - 1, by omega⟩
  rw [printedLines_eq hpos, List.length_map, List.length_zipIdx, renderLines_eq hn,
    List.length_append, List.length_flatMap, hn]
  simp
  omega

theorem printedLines_cells (hrow : row < b.size) :
    (b.printedLines value)[2 * row]? = some ⟨2 * row + 1, b.cellTokens value row⟩ := by
  have hpos : 0 < b.size := Nat.zero_lt_of_lt hrow
  obtain ⟨n, hn⟩ : ∃ n, b.size = n + 1 := ⟨b.size - 1, by omega⟩
  have hline : (b.renderLines value)[2 * row]? = some (b.renderCells value row) := by
    rw [renderLines_eq hn]
    rcases Nat.lt_succ_iff_lt_or_eq.mp (hn ▸ hrow) with hlt | rfl
    · have hpair := getElem?_flatMap_pair (f := b.renderCells value) (g := b.renderDown) hlt
      rw [List.getElem?_append_left (List.getElem?_eq_some_iff.mp hpair.1).1, hpair.1]
    · rw [List.getElem?_append_right (by simp [List.length_flatMap]; omega)]
      simp [List.length_flatMap, Nat.mul_comm]
  rw [getElem?_printedLines hpos, hline, Option.map_some, words_renderCells hpos]

theorem printedLines_down (hrow : row + 1 < b.size) :
    (b.printedLines value)[2 * row + 1]? = some ⟨2 * row + 2, b.downTokens row⟩ := by
  have hpos : 0 < b.size := Nat.zero_lt_of_lt hrow
  obtain ⟨n, hn⟩ : ∃ n, b.size = n + 1 := ⟨b.size - 1, by omega⟩
  have hpair := getElem?_flatMap_pair (f := b.renderCells value) (g := b.renderDown)
    (Nat.lt_of_succ_lt_succ (hn ▸ hrow))
  rw [getElem?_printedLines hpos, renderLines_eq hn,
    List.getElem?_append_left (List.getElem?_eq_some_iff.mp hpair.2).1, hpair.2, Option.map_some,
    words_renderDown]

theorem relationToken_sign_iff : RelationToken d [sign d r] r' ↔ r' = r := by
  rw [← readSign_eq_some_iff, readSign_sign, Option.some.injEq, eq_comm]

theorem cellToken_intDigits_iff (h : Text.Numeral64 (Text.intDigits a) a) :
    CellToken n (Text.intDigits a) c ↔ InRange n a ∧ c = if a = 0 then none else some a := by
  constructor
  · generalize htoken : Text.intDigits a = token at h
    intro hc
    cases hc with
    | point => exact absurd rfl (ne_point_of_numeral h)
    | zero =>
      obtain rfl := numeral_zero.unique h
      exact ⟨inRange_zero n, rfl⟩
    | value ha hlower hupper =>
      obtain rfl := ha.unique h
      exact ⟨⟨by omega, hupper⟩, by rw [if_neg (by omega)]⟩
  · rintro ⟨⟨hlower, hupper⟩, rfl⟩
    split
    · next hzero =>
      subst hzero
      exact .zero
    · exact .value h (by omega) hupper

theorem tokenFault_intDigits (h : Text.Numeral64 (Text.intDigits a) a) (hrange : ¬InRange n a)
    (line : Nat) : TokenFault n line (Text.intDigits a) .cell (.valueOutOfRange line a n) := by
  refine .value (fun hzero => hrange ?_) h fun hvalue => hrange ⟨by omega, hvalue.2⟩
  rw [hzero] at h
  obtain rfl := numeral_zero.unique h
  exact inRange_zero n

section Printed

variable (hvalue : ∀ p, Text.Numeral64 (Text.intDigits (value p)) (value p))
include hvalue

private theorem takes_cellTokens (htoken : (b.cellTokens value row)[i]? = some token)
    (hpos : 0 < b.size) (hrange : ∀ col, 2 * col = i → InRange b.size (value ⟨row, col⟩)) :
    (slot (2 * row) i).Takes b.size token := by
  have hi := (List.getElem?_eq_some_iff.mp htoken).1
  rw [length_cellTokens hpos] at hi
  obtain ⟨col, rfl | rfl⟩ : ∃ col, i = 2 * col ∨ i = 2 * col + 1 := ⟨i / 2, by omega⟩
  · rw [cellTokens_cell (by omega)] at htoken
    cases htoken
    rw [slot_cell]
    exact ⟨_, (cellToken_intDigits_iff (hvalue _)).mpr ⟨hrange col rfl, rfl⟩⟩
  · rw [cellTokens_sign (by omega)] at htoken
    cases htoken
    rw [slot_across]
    exact ⟨_, relationToken_sign_iff.mpr rfl⟩

/-- A printed line is in the format, unless one of its values is beyond the size. -/
private theorem lineWritten_printed (hl : (b.printedLines value)[k]? = some l) (hpos : 0 < b.size)
    (hrange : ∀ row col, 2 * row = k → col < b.size → InRange b.size (value ⟨row, col⟩)) :
    LineWritten b.size k l := by
  have hk := (List.getElem?_eq_some_iff.mp hl).1
  rw [length_printedLines hpos] at hk
  obtain ⟨row, rfl | rfl⟩ : ∃ row, k = 2 * row ∨ k = 2 * row + 1 := ⟨k / 2, by omega⟩
  · rw [printedLines_cells (by omega)] at hl
    cases hl
    refine ⟨?_, fun i token htoken => ?_⟩
    · rw [length_cellTokens hpos, width_cells (Nat.mul_mod_right 2 row)]
    · refine takes_cellTokens hvalue htoken hpos fun col hcol => hrange row col rfl ?_
      have hi := (List.getElem?_eq_some_iff.mp htoken).1
      rw [length_cellTokens hpos] at hi
      omega
  · rw [printedLines_down (by omega)] at hl
    cases hl
    have hodd : (2 * row + 1) % 2 = 1 := by omega
    refine ⟨?_, fun i token htoken => ?_⟩
    · rw [downTokens, List.length_map, List.length_range, width_down hodd]
    · obtain ⟨col, -, rfl⟩ := List.mem_map.mp (List.mem_of_getElem? htoken)
      rw [slot_down hodd]
      exact ⟨_, relationToken_sign_iff.mpr rfl⟩

theorem written_printedLines_iff (hpos : 0 < b.size) :
    Written b.size (b.printedLines value) ↔
      ∀ p : Position, p.row < b.size → p.col < b.size → InRange b.size (value p) := by
  constructor
  · intro h p hrow hcol
    have htakes := (h.line _ _ (printedLines_cells hrow)).takes _ _ (cellTokens_cell hcol)
    rw [slot_cell] at htakes
    obtain ⟨c, hc⟩ := htakes
    exact ((cellToken_intDigits_iff (hvalue p)).mp hc).1
  · intro h
    refine ⟨hpos, length_printedLines hpos, fun k l hl => ?_⟩
    refine lineWritten_printed hvalue hl hpos fun row col hrow hcol => h ⟨row, col⟩ ?_ hcol
    have hk := (List.getElem?_eq_some_iff.mp hl).1
    rw [length_printedLines hpos] at hk
    change row < b.size
    omega

/-- The first value beyond the size is the fault of the printed board. -/
theorem fault_printedLines (hrow : p.row < b.size) (hcol : p.col < b.size)
    (hout : ¬InRange b.size (value p))
    (hfirst : ∀ q : Position, q.col < b.size → q.Before p → InRange b.size (value q)) :
    Fault (b.printedLines value) (.valueOutOfRange (2 * p.row + 1) (value p) b.size) := by
  have hpos : 0 < b.size := Nat.zero_lt_of_lt hrow
  have hline : (b.printedLines value)[2 * p.row]? =
      some ⟨2 * p.row + 1, b.cellTokens value p.row⟩ := printedLines_cells hrow
  have hhead : (b.printedLines value)[2 * 0]? = some ⟨2 * 0 + 1, b.cellTokens value 0⟩ :=
    printedLines_cells hpos
  have hlength : (b.printedLines value).length = 2 * b.size - 1 := length_printedLines hpos
  have hvalueFault : TokenFault b.size (2 * p.row + 1) (Text.intDigits (value p))
      (slot (2 * p.row) (2 * p.col)) (.valueOutOfRange (2 * p.row + 1) (value p) b.size) := by
    rw [slot_cell]
    exact tokenFault_intDigits (hvalue p) hout _
  have hfault : FirstFault (LineFault b.size) (b.printedLines value)
      (.valueOutOfRange (2 * p.row + 1) (value p) b.size) := by
    refine ⟨_, _, hline, .token ?_ ⟨2 * p.col, _, cellTokens_cell hcol, hvalueFault, ?_⟩, ?_⟩
    · rw [length_cellTokens hpos, width_cells (Nat.mul_mod_right 2 _)]
    · intro j hj token htoken
      refine Slot.takes_iff.mp (takes_cellTokens hvalue htoken hpos fun col hcol' => ?_)
      have hbefore : col < p.col := by omega
      exact hfirst ⟨p.row, col⟩ (hbefore.trans hcol) (.inr ⟨rfl, hbefore⟩)
    · intro k hk l hl
      refine lineWritten_iff.mp (lineWritten_printed hvalue hl hpos fun row col hrow' hcol' => ?_)
      have hbefore : row < p.row := by omega
      exact hfirst ⟨row, col⟩ hcol' (.inl hbefore)
  cases hlines : b.printedLines value with
  | nil =>
    rw [hlines] at hhead
    cases hhead
  | cons first rest =>
    rw [hlines] at hhead hlength hfault
    cases hhead
    refine .line (n := b.size) ?_ (by rwa [List.take_of_length_le hlength.le])
    rw [length_cellTokens hpos]
    omega

end Printed

private theorem tokenAt_cells {lines : List TokenLine} {m : Nat} {tokens : List (List Char)}
    (hline : lines[k]? = some ⟨m, tokens⟩) : tokenAt lines k i = tokens[i]? := by
  rw [tokenAt, hline]
  rfl

/-- What is read from a printed board is the board with the printed values. -/
theorem same_of_parse_render (hb : b.Proper)
    (hvalue : ∀ p, Text.Numeral64 (Text.intDigits (value p)) (value p))
    (h : parse (b.render value) = .ok b') :
    b'.size = b.size ∧ b'.across = b.across ∧ b'.down = b.down ∧
      ∀ p : Position, p.row < b.size → p.col < b.size →
        b'.cell p = if value p = 0 then none else some (value p) := by
  have hb' := proper_of_parse h
  obtain ⟨hwritten, hdescribes⟩ := ofLines_describes h
  change Describes (b.printedLines value) b' at hdescribes
  have hsize : b'.size = b.size := by
    have hlength := hwritten.length_eq.symm.trans (length_printedLines hb.pos)
    have hpos := hb.pos
    have hpos' := hb'.pos
    omega
  refine ⟨hsize, ?_, ?_, fun p hrow hcol => ?_⟩
  · refine (hsize ▸ hb'.across).ext hb.across fun p hrow hcol => ?_
    have hnext : p.col + 1 < b.size := Nat.add_lt_of_lt_sub hcol
    obtain ⟨token, htoken, hfits⟩ := hdescribes.across p (hsize ▸ hrow) (hsize ▸ hnext)
    rw [tokenAt_cells (printedLines_cells hrow), cellTokens_sign hnext] at htoken
    cases htoken
    exact relationToken_sign_iff.mp hfits
  · refine (hsize ▸ hb'.down).ext hb.down fun p hrow hcol => ?_
    have hnext : p.row + 1 < b.size := Nat.add_lt_of_lt_sub hrow
    obtain ⟨token, htoken, hfits⟩ := hdescribes.down p (hsize ▸ hnext) (hsize ▸ hcol)
    rw [tokenAt_cells (printedLines_down hnext), downTokens_sign hcol] at htoken
    cases htoken
    exact relationToken_sign_iff.mp hfits
  · obtain ⟨token, htoken, hfits⟩ := hdescribes.cell p (hsize ▸ hrow) (hsize ▸ hcol)
    rw [tokenAt_cells (printedLines_cells hrow), cellTokens_cell hcol] at htoken
    cases htoken
    exact ((cellToken_intDigits_iff (hvalue p)).mp hfits).2

theorem exists_parse_render_iff (hb : b.Proper)
    (hvalue : ∀ p, Text.Numeral64 (Text.intDigits (value p)) (value p)) :
    (∃ b', parse (b.render value) = .ok b') ↔
      ∀ p : Position, p.row < b.size → p.col < b.size → InRange b.size (value p) := by
  rw [← written_printedLines_iff hvalue hb.pos]
  refine exists_ofLines_eq_ok_iff.trans ⟨?_, fun h => ⟨b.size, h⟩⟩
  rintro ⟨n, h⟩
  have hlength := h.length_eq.symm.trans (length_printedLines hb.pos)
  have hpos := hb.pos
  have hn := h.pos
  obtain rfl : n = b.size := by omega
  exact h

private theorem numeral64_cell {text : String} (h : parse text = .ok b) (p : Position) :
    Text.Numeral64 (Text.intDigits ((b.cell p).getD 0)) ((b.cell p).getD 0) := by
  have hrange : -2 ^ 63 ≤ (b.cell p).getD 0 ∧ (b.cell p).getD 0 < 2 ^ 63 := by
    cases hcell : b.cell p with
    | none => decide
    | some a =>
      obtain ⟨hrow, hcol, -⟩ := (proper_of_parse h).of_cell hcell
      obtain ⟨token, -, hfits⟩ := (ofLines_describes h).2.cell p hrow hcol
      rw [hcell] at hfits
      cases hfits with
      | value hnumeral => exact ⟨hnumeral.lower, hnumeral.upper⟩
  exact ⟨Text.numeral_intDigits _, hrange.1, hrange.2⟩

theorem parse_render_cells {text : String} (h : parse text = .ok b) :
    parse (b.render fun p => (b.cell p).getD 0) = .ok b := by
  have hb := proper_of_parse h
  have hvalue := numeral64_cell h
  have hrange : ∀ p : Position, p.row < b.size → p.col < b.size →
      InRange b.size ((b.cell p).getD 0) := by
    intro p _ _
    cases hcell : b.cell p with
    | none => exact inRange_zero b.size
    | some a =>
      obtain ⟨-, -, hlower, hupper⟩ := hb.of_cell hcell
      rw [Option.getD_some]
      exact ⟨by omega, hupper⟩
  obtain ⟨b', hb'⟩ := (exists_parse_render_iff hb hvalue).mpr hrange
  obtain ⟨hsize, hacross, hdown, hcell⟩ := same_of_parse_render hb hvalue hb'
  have hcells : b'.cells = b.cells := by
    refine (hsize ▸ (proper_of_parse hb').cells).ext hb.cells fun p hrow hcol => ?_
    change b'.cell p = b.cell p
    rw [hcell p hrow hcol]
    cases hown : b.cell p with
    | none => rfl
    | some a =>
      obtain ⟨-, -, hlower, -⟩ := hb.of_cell hown
      rw [Option.getD_some, if_neg (by omega)]
  rw [hb']
  cases b
  cases b'
  cases hsize
  cases hacross
  cases hdown
  cases hcells
  rfl

theorem exists_first {P : Position → Prop} (h : ∃ p, P p) : ∃ p, P p ∧ ∀ q, q.Before p → ¬P q := by
  classical
  have hrow : ∃ row, ∃ col, P ⟨row, col⟩ := by
    obtain ⟨⟨row, col⟩, hp⟩ := h
    exact ⟨row, col, hp⟩
  have hcol := Nat.find_spec hrow
  refine ⟨⟨Nat.find hrow, Nat.find hcol⟩, Nat.find_spec hcol, ?_⟩
  rintro ⟨row, col⟩ (hbefore | ⟨heq, hbefore⟩) hq
  · exact Nat.find_min hrow hbefore ⟨col, hq⟩
  · change row = Nat.find hrow at heq
    exact Nat.find_min hcol hbefore (heq ▸ hq)

theorem numeral64_toInt (a : Int32) : Text.Numeral64 (Text.intDigits a.toInt) a.toInt := by
  have hlower := a.le_toInt
  have hupper := a.toInt_lt
  exact ⟨Text.numeral_intDigits _, by omega, by omega⟩

/-- A board that was read is read back with the values that it is printed with. It is refused
exactly if one of them is out of range, and then because of the first. -/
theorem parse_render {text : String} (hparse : parse text = .ok b) (f : Position → Int32) :
    ((∃ b', parse (b.render fun p => (f p).toInt) = .ok b') ↔
      ∀ p : Position, p.row < b.size → p.col < b.size → InRange b.size (f p).toInt) ∧
    (∀ b', parse (b.render fun p => (f p).toInt) = .ok b' →
      b'.size = b.size ∧ b'.across = b.across ∧ b'.down = b.down ∧
        ∀ p : Position, p.row < b.size → p.col < b.size →
          b'.cell p = if (f p).toInt = 0 then none else some (f p).toInt) ∧
    ((¬∀ p : Position, p.row < b.size → p.col < b.size → InRange b.size (f p).toInt) →
      ∃ p : Position, p.row < b.size ∧ p.col < b.size ∧ ¬InRange b.size (f p).toInt ∧
        (∀ q : Position, q.row < b.size → q.col < b.size → q.Before p →
          InRange b.size (f q).toInt) ∧
        parse (b.render fun p => (f p).toInt) =
          .error (.valueOutOfRange (2 * p.row + 1) (f p).toInt b.size)) ∧
    parse (b.render fun p => (b.cell p).getD 0) = .ok b := by
  have hb := proper_of_parse hparse
  have hvalue : ∀ p, Text.Numeral64 (Text.intDigits (f p).toInt) (f p).toInt :=
    fun p => numeral64_toInt (f p)
  refine ⟨exists_parse_render_iff hb hvalue, fun b' hb' => same_of_parse_render hb hvalue hb',
    fun hout => ?_, parse_render_cells hparse⟩
  simp only [not_forall] at hout
  obtain ⟨p, hp, hp', hpout⟩ := hout
  obtain ⟨q, ⟨hrow, hcol, hqout⟩, hfirst⟩ := exists_first
    (P := fun p => p.row < b.size ∧ p.col < b.size ∧ ¬InRange b.size (f p).toInt)
    ⟨p, hp, hp', hpout⟩
  have hbefore : ∀ q' : Position, q'.row < b.size → q'.col < b.size → q'.Before q →
      InRange b.size (f q').toInt := by
    intro q' hrow' hcol' hq'
    by_contra hout
    exact hfirst q' hq' ⟨hrow', hcol', hout⟩
  refine ⟨q, hrow, hcol, hqout, hbefore, ofLines_eq_error_iff.mpr ?_⟩
  refine fault_printedLines hvalue hrow hcol hqout fun q' hcol' hq' => ?_
  refine hbefore q' ?_ hcol' hq'
  rcases hq' with hlt | ⟨heq, -⟩
  · exact hlt.trans hrow
  · exact heq ▸ hrow

/-- A board that is read back with its own values, and refused with one below zero in its last
row. -/
theorem parse_render_two :
    let b : Board := ⟨2, [[some 1, none], [none, none]], [[some .less], [none]],
      [[none, some .greater]]⟩
    let f : Position → Int32 := fun p => if p = ⟨1, 0⟩ then -7 else 0
    parse "1 < .\n. v\n. . ." = .ok b ∧
      parse (b.render fun p => (b.cell p).getD 0) = .ok b ∧
      ∃ p : Position, p.row < 2 ∧ p.col < 2 ∧ ¬InRange 2 (f p).toInt ∧
        (∀ q : Position, q.row < 2 → q.col < 2 → q.Before p → InRange 2 (f q).toInt) ∧
        parse (b.render fun p => (f p).toInt) =
          .error (.valueOutOfRange (2 * p.row + 1) (f p).toInt 2) := by
  intro b f
  have hparse : parse "1 < .\n. v\n. . ." = .ok b := by decide +kernel
  obtain ⟨-, -, hfirst, hown⟩ := parse_render hparse f
  refine ⟨hparse, hown, hfirst fun hall => ?_⟩
  have hlower := (hall ⟨1, 0⟩ (by decide) (by decide)).1
  exact absurd hlower (by decide)

end FiniteDomain.Futoshiki.Board
