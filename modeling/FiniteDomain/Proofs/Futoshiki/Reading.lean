import FiniteDomain.Proofs.Futoshiki.Format
import FiniteDomain.Proofs.Futoshiki.Layout
/-!
# What is read

Reading accepts the texts in the format of boards and no others, gives the board that the text
describes, and reports the first fault of a text that it does not accept.
-/
namespace FiniteDomain.Futoshiki.Board

variable {n line k i j : Nat} {token : List Char} {tokens : List (List Char)} {d : Direction}
  {c : Option Int} {r : Option Relation} {l : TokenLine} {lines : List TokenLine} {b : Board}
  {cells : List (Option Int)} {relations : List (Option Relation)} {e : ParseError}

theorem readCell_eq_ok_iff : readCell n line token = .ok c ↔ CellToken n token c := by
  rw [readCell]
  constructor
  · intro h
    split at h
    · next hempty =>
      cases h
      rcases (Bool.or_eq_true _ _).mp hempty with hpoint | hzero
      · exact of_decide_eq_true hpoint ▸ .point
      · exact of_decide_eq_true hzero ▸ .zero
    · split at h
      · cases h
      · next a ha =>
        split at h
        · next hrange =>
          cases h
          exact .value (Text.readInt64_eq_some_iff.mp ha) hrange.1 hrange.2
        · cases h
  · intro h
    cases h with
    | point | zero => rfl
    | @value _ a ha hlower hupper =>
      have hread := Text.readInt64_eq_some_iff.mpr ha
      have hpoint := ne_point_of_numeral ha
      have hzero : token ≠ ['0'] := by
        rintro rfl
        obtain rfl := numeral_zero.unique ha
        omega
      simp only [hpoint, hzero, decide_false, Bool.or_self, Bool.false_eq_true, if_false, hread]
      exact if_pos ⟨hlower, hupper⟩

theorem readCell_eq_error_iff : readCell n line token = .error e ↔ TokenFault n line token .cell e := by
  rw [readCell]
  constructor
  · intro h
    split at h
    · cases h
    · next hempty =>
      simp only [Bool.or_eq_true, decide_eq_true_eq, not_or] at hempty
      split at h
      · next hnone =>
        cases h
        refine .cell hempty.1 fun a ha => ?_
        cases hnone.symm.trans (Text.readInt64_eq_some_iff.mpr ha)
      · next a ha =>
        split at h
        · cases h
        · next hrange =>
          cases h
          exact .value hempty.2 (Text.readInt64_eq_some_iff.mp ha) hrange
  · intro h
    cases h with
    | cell hpoint hnone =>
      have hread : Text.readInt64 token = none :=
        Option.eq_none_iff_forall_ne_some.mpr fun a ha => hnone a (Text.readInt64_eq_some_iff.mp ha)
      have hzero : token ≠ ['0'] := by
        rintro rfl
        exact hnone 0 numeral_zero
      simp only [hpoint, hzero, decide_false, Bool.or_self, Bool.false_eq_true, if_false, hread]
    | value hzero ha hrange =>
      have hread := Text.readInt64_eq_some_iff.mpr ha
      have hpoint := ne_point_of_numeral ha
      simp only [hpoint, hzero, decide_false, Bool.or_self, Bool.false_eq_true, if_false, hread]
      exact if_neg hrange

theorem readSign_eq_some_iff : readSign d token = some r ↔ RelationToken d token r := by
  constructor
  · intro h
    rw [readSign] at h
    have htoken : token = [sign d r] := by simpa using List.find?_some h
    rw [htoken]
    cases d <;> rcases r with _ | _ | _ <;> constructor
  · intro h
    have htoken : token = [sign d r] := by
      cases h with
      | point d => cases d <;> rfl
      | acrossLess | acrossGreater | downLess | downGreater => rfl
    rw [htoken, readSign_sign]

theorem readRelation_eq_ok_iff : readRelation d line token = .ok r ↔ RelationToken d token r := by
  rw [readRelation, ← readSign_eq_some_iff]
  cases readSign d token <;> simp

theorem readRelation_eq_error_iff :
    readRelation d line token = .error e ↔ TokenFault n line token (.relation d) e := by
  have hnone : readSign d token = none ↔ ∀ r, ¬RelationToken d token r := by
    simp only [Option.eq_none_iff_forall_ne_some, ne_eq, readSign_eq_some_iff]
  rw [readRelation]
  constructor
  · intro h
    split at h
    · next hread =>
      cases h
      exact .relation (hnone.mp hread)
    · cases h
  · intro h
    cases h with
    | relation hnot => rw [hnone.mpr hnot]

theorem readCells_eq_error_iff (hk : k % 2 = 0) :
    readCells n line tokens = .error e ↔
      FirstFault (fun i token => TokenFault n line token (slot k i)) tokens e := by
  have hcell : slot k 0 = .cell := slot_cells hk
  have hrelation : slot k 1 = .relation .across := slot_cells hk
  have hshift : ∀ i, slot k (i + 1 + 1) = slot k i := by
    intro i
    rw [slot_cells hk, slot_cells hk, Nat.add_assoc, Nat.add_mod_right]
  induction tokens using readCells.induct with
  | case1 => exact iff_of_false (fun h => by cases h) not_firstFault_nil
  | case2 token =>
    rw [firstFault_cons, hcell]
    refine bind_eq_error_iff (fun e' => readCell_eq_error_iff) fun c _ => ?_
    exact iff_of_false (fun h => by cases h) not_firstFault_nil
  | case3 token between rest ih =>
    rw [firstFault_cons, firstFault_cons, hcell]
    refine bind_eq_error_iff (fun e' => readCell_eq_error_iff) fun c _ => ?_
    simp only [Nat.zero_add, hrelation, hshift]
    refine bind_eq_error_iff (fun e' => readRelation_eq_error_iff) fun r _ => ?_
    exact bind_pure_eq_error_iff.trans ih

theorem expectTokens_eq_error_iff {expected : Nat} :
    expectTokens l expected = .error e ↔
      l.tokens.length ≠ expected ∧ e = .wrongTokenCount l.number expected l.tokens.length := by
  rw [expectTokens]
  split
  · next h => exact iff_of_false (fun he => by cases he) fun he => he.1 h
  · next h =>
    rw [Except.error.injEq, eq_comm]
    exact (and_iff_right h).symm

private theorem counted_eq_error_iff {α : Type} {read : Except ParseError α}
    (hread : l.tokens.length = width n k → (read = .error e ↔
      FirstFault (fun i token => TokenFault n l.number token (slot k i)) l.tokens e)) :
    (expectTokens l (width n k) >>= fun _ => read) = .error e ↔ LineFault n k l e := by
  refine (bind_eq_error_iff (fun e' => expectTokens_eq_error_iff) fun _ hcount =>
    hread (expectTokens_eq_ok_iff.mp hcount)).trans ?_
  have hnone : (∀ e' : ParseError, ¬(l.tokens.length ≠ width n k ∧
      e' = .wrongTokenCount l.number (width n k) l.tokens.length)) ↔
      l.tokens.length = width n k := by
    constructor
    · intro h
      by_contra hne
      exact h _ ⟨hne, rfl⟩
    · exact fun heq e' he' => he'.1 heq
  rw [lineFault_iff, hnone]

theorem readCellLine_eq_error_iff (hk : k % 2 = 0) :
    readCellLine n l = .error e ↔ LineFault n k l e := by
  rw [readCellLine, ← width_cells hk]
  exact counted_eq_error_iff fun _ => readCells_eq_error_iff hk

theorem readDownLine_eq_error_iff (hk : k % 2 = 1) :
    readDownLine n l = .error e ↔ LineFault n k l e := by
  have hread : l.tokens.mapM (readRelation .down l.number) = .error e ↔
      FirstFault (fun i token => TokenFault n l.number token (slot k i)) l.tokens e := by
    simp only [slot_down hk]
    exact mapM_eq_error_iff fun token e => readRelation_eq_error_iff
  have hcounted : _ ↔ LineFault n k l e := counted_eq_error_iff fun _ => hread
  rw [width_down hk] at hcounted
  exact hcounted

theorem readLines_eq_error_iff : readLines n lines = .error e ↔ FirstFault (LineFault n) lines e := by
  induction lines using readLines.induct with
  | case1 => exact iff_of_false (fun h => by cases h) not_firstFault_nil
  | case2 l =>
    rw [firstFault_cons]
    refine bind_eq_error_iff (fun e' => readCellLine_eq_error_iff rfl) fun pair _ => ?_
    exact iff_of_false (fun h => by cases h) not_firstFault_nil
  | case3 l m rest ih =>
    rw [firstFault_cons, firstFault_cons]
    simp only [Nat.zero_add, Nat.add_assoc, Nat.reduceAdd, lineFault_add_two]
    refine bind_eq_error_iff (fun e' => readCellLine_eq_error_iff rfl) fun pair _ => ?_
    refine bind_eq_error_iff (fun e' => readDownLine_eq_error_iff rfl) fun down _ => ?_
    exact bind_pure_eq_error_iff.trans ih

theorem exists_readLines_eq_ok_iff :
    (∃ b, readLines n lines = .ok b) ↔ ∀ k l, lines[k]? = some l → LineWritten n k l := by
  simp only [exists_eq_ok_iff, ne_eq, readLines_eq_error_iff, forall_not_firstFault,
    ← lineWritten_iff]

theorem readCells_entries (h : readCells n line tokens = .ok (cells, relations)) (j : Nat) :
    (∀ token, tokens[2 * j]? = some token → ∃ c, cells[j]? = some c ∧ CellToken n token c) ∧
      ∀ token, tokens[2 * j + 1]? = some token →
        ∃ r, relations[j]? = some r ∧ RelationToken .across token r := by
  induction tokens using readCells.induct generalizing cells relations j with
  | case1 => exact ⟨fun _ ht => (by cases ht), fun _ ht => (by cases ht)⟩
  | case2 first =>
    obtain ⟨c, hc, h⟩ := bind_eq_ok.mp h
    cases h
    cases j with
    | zero =>
      refine ⟨fun token ht => ⟨c, rfl, ?_⟩, fun _ ht => by cases ht⟩
      cases ht
      exact readCell_eq_ok_iff.mp hc
    | succ j => exact ⟨fun _ ht => (by cases ht), fun _ ht => (by cases ht)⟩
  | case3 first between rest ih =>
    obtain ⟨c, hc, h⟩ := bind_eq_ok.mp h
    obtain ⟨r, hr, h⟩ := bind_eq_ok.mp h
    obtain ⟨⟨cells', relations'⟩, hrest, h⟩ := bind_eq_ok.mp h
    cases h
    cases j with
    | zero =>
      refine ⟨fun token ht => ⟨c, rfl, ?_⟩, fun token ht => ⟨r, rfl, ?_⟩⟩
      · cases ht
        exact readCell_eq_ok_iff.mp hc
      · cases ht
        exact readRelation_eq_ok_iff.mp hr
    | succ j => exact ih hrest j

theorem readDownLine_entries (h : readDownLine n l = .ok relations)
    (ht : l.tokens[j]? = some token) : ∃ r, relations[j]? = some r ∧ RelationToken .down token r := by
  obtain ⟨_, -, h⟩ := bind_eq_ok.mp h
  have hpairs := mapM_eq_ok.mp h
  obtain ⟨hj, rfl⟩ := List.getElem?_eq_some_iff.mp ht
  have hj' : j < relations.length := hpairs.length_eq ▸ hj
  exact ⟨relations[j], List.getElem?_eq_getElem hj', readRelation_eq_ok_iff.mp (hpairs.get hj hj')⟩

theorem readLines_rows (h : readLines n lines = .ok b) (j : Nat) :
    (∀ l, lines[2 * j]? = some l → ∃ cells across, b.cells[j]? = some cells ∧
        b.across[j]? = some across ∧ readCells n l.number l.tokens = .ok (cells, across)) ∧
      ∀ l, lines[2 * j + 1]? = some l →
        ∃ down, b.down[j]? = some down ∧ readDownLine n l = .ok down := by
  induction lines using readLines.induct generalizing b j with
  | case1 => exact ⟨fun _ hl => (by cases hl), fun _ hl => (by cases hl)⟩
  | case2 first =>
    obtain ⟨⟨cells, across⟩, hfirst, h⟩ := bind_eq_ok.mp h
    cases h
    cases j with
    | zero =>
      refine ⟨fun l hl => ⟨cells, across, rfl, rfl, ?_⟩, fun _ hl => by cases hl⟩
      cases hl
      obtain ⟨_, -, hcells⟩ := bind_eq_ok.mp hfirst
      exact hcells
    | succ j => exact ⟨fun _ hl => (by cases hl), fun _ hl => (by cases hl)⟩
  | case3 first second rest ih =>
    obtain ⟨⟨cells, across⟩, hfirst, h⟩ := bind_eq_ok.mp h
    obtain ⟨down, hdown, h⟩ := bind_eq_ok.mp h
    obtain ⟨below, hbelow, h⟩ := bind_eq_ok.mp h
    cases h
    cases j with
    | zero =>
      refine ⟨fun l hl => ⟨cells, across, rfl, rfl, ?_⟩, fun l hl => ⟨down, rfl, ?_⟩⟩
      · cases hl
        obtain ⟨_, -, hcells⟩ := bind_eq_ok.mp hfirst
        exact hcells
      · cases hl
        exact hdown
    | succ j => exact ih hbelow j

private theorem ofLines_cons {first : TokenLine} {rest : List TokenLine}
    (hfirst : first.tokens.length + 1 = 2 * n) :
    ofLines (first :: rest) =
      readLines n ((first :: rest).take (2 * n - 1)) >>= fun b =>
        if (first :: rest).length = 2 * n - 1 then pure b
        else throw (.wrongLineCount (2 * n - 1) (first :: rest).length) := by
  have hodd : ¬first.tokens.length % 2 = 0 := by omega
  have hsize : (first.tokens.length + 1) / 2 = n := by omega
  rw [ofLines, if_neg hodd, hsize]
  rfl

theorem ofLines_eq_ok_iff {first : TokenLine} {rest : List TokenLine}
    (hfirst : first.tokens.length + 1 = 2 * n) :
    ofLines (first :: rest) = .ok b ↔
      (first :: rest).length = 2 * n - 1 ∧ readLines n (first :: rest) = .ok b := by
  rw [ofLines_cons hfirst, bind_eq_ok]
  constructor
  · rintro ⟨b', hb', h⟩
    split at h
    · next hlength =>
      cases h
      rw [List.take_of_length_le hlength.le] at hb'
      exact ⟨hlength, hb'⟩
    · cases h
  · rintro ⟨hlength, hb⟩
    refine ⟨b, ?_, if_pos hlength⟩
    rwa [List.take_of_length_le hlength.le]

/-- The number of the lines is at fault if none of those that are looked at is. -/
private theorem ofLines_cons_eq_error_iff {first : TokenLine} {rest : List TokenLine}
    (hfirst : first.tokens.length + 1 = 2 * n) :
    ofLines (first :: rest) = .error e ↔
      FirstFault (LineFault n) ((first :: rest).take (2 * n - 1)) e ∨
      (∀ e', ¬FirstFault (LineFault n) ((first :: rest).take (2 * n - 1)) e') ∧
        (first :: rest).length ≠ 2 * n - 1 ∧
        e = .wrongLineCount (2 * n - 1) (first :: rest).length := by
  rw [ofLines_cons hfirst]
  refine bind_eq_error_iff (fun e' => readLines_eq_error_iff) fun b _ => ?_
  split
  · next hlength => exact iff_of_false (fun h => by cases h) fun h => h.1 hlength
  · next hlength =>
    constructor
    · intro h
      cases h
      exact ⟨hlength, rfl⟩
    · intro h
      rw [h.2]
      rfl

private theorem fault_cons_iff {first : TokenLine} {rest : List TokenLine}
    (hfirst : first.tokens.length + 1 = 2 * n) :
    Fault (first :: rest) e ↔
      FirstFault (LineFault n) ((first :: rest).take (2 * n - 1)) e ∨
      (∀ e', ¬FirstFault (LineFault n) ((first :: rest).take (2 * n - 1)) e') ∧
        (first :: rest).length ≠ 2 * n - 1 ∧
        e = .wrongLineCount (2 * n - 1) (first :: rest).length := by
  constructor
  · intro h
    cases h with
    | even heven => omega
    | @line m _ _ _ hfirst' hline =>
      obtain rfl : m = n := by omega
      exact .inl hline
    | @count m _ _ hfirst' hnone hlength =>
      obtain rfl : m = n := by omega
      exact .inr ⟨hnone, hlength, rfl⟩
  · intro h
    rcases h with hline | ⟨hnone, hlength, rfl⟩
    · exact .line hfirst hline
    · exact .count hfirst hnone hlength

theorem ofLines_eq_error_iff : ofLines lines = .error e ↔ Fault lines e := by
  cases lines with
  | nil =>
    constructor
    · intro h
      cases h
      exact .empty
    · intro h
      cases h
      rfl
  | cons first rest =>
    rcases Nat.mod_two_eq_zero_or_one first.tokens.length with heven | hodd
    · rw [ofLines, if_pos heven]
      constructor
      · intro h
        cases h
        exact .even heven
      · intro h
        cases h with
        | even => rfl
        | line hfirst | count hfirst => omega
    · obtain ⟨n, hfirst⟩ : ∃ n, first.tokens.length + 1 = 2 * n :=
        ⟨(first.tokens.length + 1) / 2, by omega⟩
      rw [ofLines_cons_eq_error_iff hfirst, fault_cons_iff hfirst]

private theorem Written.first {first : TokenLine} {rest : List TokenLine}
    (h : Written n (first :: rest)) : first.tokens.length + 1 = 2 * n := by
  have hlength := (h.line 0 first rfl).length_eq
  rw [width_cells rfl] at hlength
  have hpos := h.pos
  omega

theorem exists_ofLines_eq_ok_iff : (∃ b, ofLines lines = .ok b) ↔ ∃ n, Written n lines := by
  constructor
  · rintro ⟨b, hb⟩
    cases lines with
    | nil => cases hb
    | cons first rest =>
      rcases Nat.mod_two_eq_zero_or_one first.tokens.length with heven | hodd
      · rw [ofLines, if_pos heven] at hb
        cases hb
      · obtain ⟨n, hfirst⟩ : ∃ n, first.tokens.length + 1 = 2 * n :=
          ⟨(first.tokens.length + 1) / 2, by omega⟩
        obtain ⟨hlength, hb⟩ := (ofLines_eq_ok_iff hfirst).mp hb
        exact ⟨n, by omega, hlength, exists_readLines_eq_ok_iff.mp ⟨b, hb⟩⟩
  · rintro ⟨n, h⟩
    cases lines with
    | nil =>
      have hpos := h.pos
      have hlength : 0 = 2 * n - 1 := h.length_eq
      omega
    | cons first rest =>
      obtain ⟨b, hb⟩ := exists_readLines_eq_ok_iff.mpr h.line
      exact ⟨b, (ofLines_eq_ok_iff h.first).mpr ⟨h.length_eq, hb⟩⟩

private theorem Written.exists_tokenAt (h : Written n lines) (hk : k < 2 * n - 1)
    (hi : i < width n k) :
    ∃ l token, lines[k]? = some l ∧ l.tokens[i]? = some token ∧ tokenAt lines k i = some token := by
  have hl := List.getElem?_eq_getElem (h.length_eq.symm ▸ hk)
  have htoken := List.getElem?_eq_getElem ((h.line k _ hl).length_eq.symm ▸ hi)
  exact ⟨_, _, hl, htoken, by rw [tokenAt, hl]; exact htoken⟩

/-- The board is the one that the lines describe. -/
theorem describes_of_readLines (hlines : Written n lines) (h : readLines n lines = .ok b)
    (hsize : b.size = n) : Describes lines b := by
  subst hsize
  have hcells (row : Nat) : width b.size (2 * row) = 2 * b.size - 1 :=
    width_cells (Nat.mul_mod_right 2 row)
  have hdown (row : Nat) : width b.size (2 * row + 1) = b.size := width_down (by omega)
  constructor
  · intro p hrow hcol
    obtain ⟨l, token, hl, hget, hat⟩ := hlines.exists_tokenAt (k := 2 * p.row) (i := 2 * p.col)
      (by omega) (by rw [hcells]; omega)
    obtain ⟨cells, across, hcells, -, hread⟩ := (readLines_rows h p.row).1 l hl
    obtain ⟨c, hc, hfits⟩ := (readCells_entries hread p.col).1 token hget
    have hcell : b.cell p = c := tableEntry_of_getElem? hcells hc
    exact ⟨token, hat, hcell ▸ hfits⟩
  · intro p hrow hcol
    obtain ⟨l, token, hl, hget, hat⟩ := hlines.exists_tokenAt (k := 2 * p.row) (i := 2 * p.col + 1)
      (by omega) (by rw [hcells]; omega)
    obtain ⟨cells, across, -, hacross, hread⟩ := (readLines_rows h p.row).1 l hl
    obtain ⟨r, hr, hfits⟩ := (readCells_entries hread p.col).2 token hget
    have hrelation : b.relation .across p = r := tableEntry_of_getElem? hacross hr
    exact ⟨token, hat, hrelation ▸ hfits⟩
  · intro p hrow hcol
    obtain ⟨l, token, hl, hget, hat⟩ := hlines.exists_tokenAt (k := 2 * p.row + 1) (i := p.col)
      (by omega) (by rw [hdown]; exact hcol)
    obtain ⟨down, hdown, hread⟩ := (readLines_rows h p.row).2 l hl
    obtain ⟨r, hr, hfits⟩ := readDownLine_entries hread hget
    have hrelation : b.relation .down p = r := tableEntry_of_getElem? hdown hr
    exact ⟨token, hat, hrelation ▸ hfits⟩

theorem ofLines_describes (h : ofLines lines = .ok b) : Written b.size lines ∧ Describes lines b := by
  obtain ⟨n, hlines⟩ := exists_ofLines_eq_ok_iff.mp ⟨b, h⟩
  cases lines with
  | nil => cases h
  | cons first rest =>
    obtain ⟨hlength, hb⟩ := (ofLines_eq_ok_iff hlines.first).mp h
    have hpos := hlines.pos
    obtain ⟨hsize, -⟩ := readLines_shape (n := n - 1) hpos hb (by omega)
    exact ⟨hsize.symm ▸ hlines, describes_of_readLines hlines hb hsize⟩

private theorem isSignificant_words (line : List Char) :
    isSignificant (Text.words line) = true ↔
      ¬(Text.trim line = [] ∨ (Text.trim line).head? = some '#') := by
  rw [← Text.words_trim]
  cases htrim : Text.trim line with
  | nil => simp [Text.words, Text.split, isSignificant]
  | cons c cs =>
    obtain ⟨word, rest, hwords⟩ := Text.exists_words_cons (Text.not_isBlank_of_trim htrim) cs
    simp [hwords, isSignificant]

theorem significantLines_eq (text : List Char) :
    significantLines text =
      (((Text.lines text).map Text.trim).zipIdx 1).filterMap fun (line, number) =>
        if line = [] ∨ line.head? = some '#' then none else some ⟨number, Text.words line⟩ := by
  rw [significantLines, List.zipIdx_map, List.filterMap_map]
  congr 1
  funext ⟨line, number⟩
  change (if isSignificant (Text.words line) = true then _ else _) =
    if Text.trim line = [] ∨ (Text.trim line).head? = some '#' then none
    else some (TokenLine.mk number (Text.words (Text.trim line)))
  rw [Text.words_trim, if_congr (isSignificant_words line) rfl rfl, ite_not]

/-- Exactly the texts in the format are read, each as the board that it describes, and any other
text is refused with its first fault. -/
theorem parse_reads_format (text : String) :
    significantLines text.toList =
      (((Text.lines text.toList).map Text.trim).zipIdx 1).filterMap (fun (line, number) =>
        if line = [] ∨ line.head? = some '#' then none else some ⟨number, Text.words line⟩) ∧
    ((∃ b, parse text = .ok b) ↔ ∃ n, Written n (significantLines text.toList)) ∧
    (∀ b, parse text = .ok b →
      Written b.size (significantLines text.toList) ∧
      Describes (significantLines text.toList) b ∧
      RowMajor b.cells b.size b.size ∧
      RowMajor b.across b.size (b.size - 1) ∧
      RowMajor b.down (b.size - 1) b.size ∧
      ∃ sites, b.InOrder sites ∧ b.inequalities = sites.map Site.pair) ∧
    ∀ e, parse text = .error e ↔ Fault (significantLines text.toList) e := by
  refine ⟨significantLines_eq text.toList, exists_ofLines_eq_ok_iff, fun b hb => ?_,
    fun e => ofLines_eq_error_iff⟩
  have hproper := proper_of_parse hb
  obtain ⟨hwritten, hdescribes⟩ := ofLines_describes hb
  exact ⟨hwritten, hdescribes, hproper.cells.rowMajor, hproper.across.rowMajor,
    hproper.down.rowMajor, hproper.exists_inOrder⟩

/-- A board between lines that say nothing, and a text of which only the first fault counts. -/
theorem parse_reads_format_two :
    let text := "# two rows\n\n 2 > .\r\n. v\n0 . +1"
    let b : Board := ⟨2, [[some 2, none], [none, some 1]], [[some .greater], [none]],
      [[none, some .greater]]⟩
    (parse text = .ok b ∧ Written 2 (significantLines text.toList) ∧
      Describes (significantLines text.toList) b ∧ RowMajor b.cells 2 2 ∧
      RowMajor b.across 2 1 ∧ RowMajor b.down 1 2 ∧
      ∃ sites, b.InOrder sites ∧ b.inequalities = sites.map Site.pair) ∧
    Fault (significantLines "\n1 x 9".toList) (.unknownToken 2 "x") := by
  intro text b
  have hparse : parse text = .ok b := by decide +kernel
  exact ⟨⟨hparse, (parse_reads_format text).2.2.1 b hparse⟩,
    ((parse_reads_format "\n1 x 9").2.2.2 _).mp (by decide +kernel)⟩

end FiniteDomain.Futoshiki.Board
