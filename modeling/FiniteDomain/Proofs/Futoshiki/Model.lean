import FiniteDomain.Proofs.Constraint.Meaning
import FiniteDomain.Proofs.Futoshiki.Grid
import FiniteDomain.Proofs.Futoshiki.Shape
/-!
# Models of boards

Every board that is read has a network of either kind. Its variables are the cells in order, and
its solutions by current values are the grids that solve the board.
-/
namespace FiniteDomain.Futoshiki.Model

def cellOf (b : Board) (p : Position) : Variable := .ofDomain (cellName p) (cellDomain b p)

/-- The variables of the network are the cells in order, as they were made. -/
def HasCells (b : Board) (net : Network) : Prop :=
  net.vars.toList = (Board.positions b.size).map (cellOf b)

/-- What the constraints of a board say about the values of its cells. -/
structure Meets (b : Board) (value : VariableId → Option Int) : Prop where
  rows : ∀ i < b.size, (((row b.size i).map (cellVariable b.size)).map value).Nodup
  columns : ∀ i < b.size, (((column b.size i).map (cellVariable b.size)).map value).Nodup
  inequalities : ∀ q ∈ b.inequalities, ∀ a c, value (cellVariable b.size q.1) = some a →
    value (cellVariable b.size q.2) = some c → a < c

/-- Some cells of a board of this size, each once. -/
structure IsLine (n : Nat) (ps : List Position) : Prop where
  ne_nil : ps ≠ []
  nodup : ps.Nodup
  inside : ∀ p ∈ ps, p.row < n ∧ p.col < n

/-- The network of a board has its cells and its constraints, and nothing else. -/
structure Represents (b : Board) (net : Network) : Prop where
  reachable : net.Reachable
  cells : HasCells b net
  expresses : net.Expresses net.constraints.toList (Meets b)

variable {b : Board} {net : Network} {p : Position} {kind : ModelKind} {a : Int} {i j : Nat}
  {x : VariableId} {line : List VariableId}

theorem mem_cellDomain (hb : b.Proper) :
    a ∈ cellDomain b p ↔ (1 ≤ a ∧ a ≤ b.size) ∧ ∀ v, b.cell p = some v → a = v := by
  cases hcell : b.cell p with
  | some v =>
    obtain ⟨-, -, hrange⟩ := hb.of_cell hcell
    rw [cellDomain, hcell]
    simp only [List.mem_singleton, Option.some.injEq, forall_eq']
    constructor
    · rintro rfl
      exact ⟨hrange, rfl⟩
    · exact And.right
  | none =>
    rw [cellDomain, hcell]
    simp only [List.mem_map, List.mem_range, Int.ofNat_eq_natCast, reduceCtorEq, false_implies,
      implies_true, and_true]
    constructor
    · rintro ⟨k, hk, rfl⟩
      omega
    · intro h
      exact ⟨(a - 1).toNat, by omega, by omega⟩

theorem nodup_cellDomain (b : Board) (p : Position) : (cellDomain b p).Nodup := by
  rw [cellDomain]
  split
  · exact List.nodup_singleton _
  · refine List.nodup_range.map fun k l h => ?_
    have hsucc : Int.ofNat k + 1 = Int.ofNat l + 1 := h
    simp only [Int.ofNat_eq_natCast] at hsucc
    omega

theorem cellDomain_ne_nil (hb : b.Proper) (p : Position) : cellDomain b p ≠ [] := by
  have hpos := hb.pos
  rw [cellDomain]
  split
  · exact List.cons_ne_nil _ _
  · simp
    omega

theorem addCells_eq_ok (hb : b.Proper) (hnet : net.Reachable) (ps : List Position) :
    ∃ net', addCells b net ps = .ok net' ∧ net'.Reachable ∧
      net'.vars.toList = net.vars.toList ++ ps.map (cellOf b) ∧
      net'.constraints = net.constraints := by
  induction ps generalizing net with
  | nil => exact ⟨net, rfl, hnet, by simp, rfl⟩
  | cons p ps ih =>
    have hadd :=
      net.addVariable_of_nodup (cellName p) (cellDomain_ne_nil hb p) (nodup_cellDomain b p)
    obtain ⟨net', hcells, hreachable, hvars, hconstraints⟩ := ih (.addVariable hnet hadd)
    refine ⟨net', ?_, hreachable, ?_, hconstraints⟩
    · rw [addCells, hadd]
      exact hcells
    · rw [hvars, Store.toList_push, List.append_assoc]
      rfl

namespace HasCells

theorem get?_eq (h : HasCells b net) (hi : i < b.size) (hj : j < b.size) :
    net.vars.get? (cellVariable b.size ⟨i, j⟩) = some (cellOf b ⟨i, j⟩) := by
  rw [Store.get?_eq, h, List.getElem?_map]
  change ((Board.positions b.size)[i * b.size + j]?).map (cellOf b) = _
  rw [Board.getElem?_positions hi hj, Option.map_some]

theorem numVariables_eq (h : HasCells b net) : net.numVariables = b.size * b.size := by
  rw [Network.numVariables, ← Store.length_toList, h, List.length_map, Board.length_positions]

theorem knows (h : HasCells b net) (hi : i < b.size) (hj : j < b.size) :
    net.Knows (cellVariable b.size ⟨i, j⟩) :=
  ⟨_, h.get?_eq hi hj⟩

theorem exists_cell (h : HasCells b net) (hx : net.Knows x) :
    ∃ i j, i < b.size ∧ j < b.size ∧ x = cellVariable b.size ⟨i, j⟩ := by
  obtain ⟨v, hv⟩ := hx
  exact exists_cellVariable (h.numVariables_eq ▸ Store.lt_size_of_get? hv)

theorem free (h : HasCells b net) : net.Free := by
  intro x
  cases hx : net.vars.get? x with
  | none => rw [Network.assigned, hx, Option.bind_none]
  | some v =>
    obtain ⟨i, j, hi, hj, rfl⟩ := h.exists_cell ⟨v, hx⟩
    rw [Network.assigned, h.get?_eq hi hj]
    rfl

theorem has_iff (h : HasCells b net) (hi : i < b.size) (hj : j < b.size) :
    net.Has (cellVariable b.size ⟨i, j⟩) a ↔ a ∈ cellDomain b ⟨i, j⟩ := by
  simp [Network.Has, h.get?_eq hi hj, cellOf, ← Variable.mem_currentDomain]

end HasCells

theorem forall_mem_pairs {α : Type} {R : α → α → Prop} {as : List α} :
    (∀ q ∈ pairs as, R q.1 q.2) ↔ as.Pairwise R := by
  induction as with
  | nil => simp [pairs]
  | cons a as ih =>
    rw [pairs, List.forall_mem_append, ih, List.pairwise_cons, List.forall_mem_map]

theorem lineConstraints_express (kind : ModelKind) (name : String) (hne : line ≠ [])
    (hnodup : line.Nodup) (hknown : ∀ x ∈ line, net.Knows x) :
    ∃ cs, lineConstraints kind net name line = .ok cs ∧
      net.Expresses cs fun value => (line.map value).Nodup := by
  cases kind with
  | binary =>
    have hline : line.Pairwise fun x y => net.Knows x ∧ net.Knows y ∧ x ≠ y :=
      hnodup.imp_of_mem fun hx hy hxy => ⟨hknown _ hx, hknown _ hy, hxy⟩
    have hpair : ∀ q ∈ pairs line, ∃ c, Constraint.notEquals net q.1 q.2 = .ok c ∧
        net.Expresses [c] fun value => value q.1 ≠ value q.2 := by
      intro q hq
      obtain ⟨hx, hy, hxy⟩ := forall_mem_pairs.mpr hline q hq
      exact Network.notEquals_expresses hx hy hxy
    obtain ⟨cs, hcs, hexpress⟩ := Network.Expresses.of_mapM_single _ hpair
    refine ⟨cs, hcs, hexpress.congr fun value _ => ?_⟩
    rw [forall_mem_pairs (R := fun x y => value x ≠ value y), List.Nodup, List.pairwise_map]
  | nary =>
    obtain ⟨c, hc, hexpress⟩ := Network.allDifferent_expresses name hne hnodup hknown
    exact ⟨[c], by rw [lineConstraints, hc]; rfl, hexpress⟩

theorem isLine_row {n : Nat} (hi : i < n) : IsLine n (row n i) where
  ne_nil := by
    simp [row]
    omega
  nodup := List.nodup_range.map fun _ _ h => (Position.mk.inj h).2
  inside p hp := by
    obtain ⟨j, hj, rfl⟩ := List.mem_map.mp hp
    exact ⟨hi, List.mem_range.mp hj⟩

theorem isLine_column {n : Nat} (hi : i < n) : IsLine n (column n i) where
  ne_nil := by
    simp [column]
    omega
  nodup := List.nodup_range.map fun _ _ h => (Position.mk.inj h).1
  inside p hp := by
    obtain ⟨j, hj, rfl⟩ := List.mem_map.mp hp
    exact ⟨List.mem_range.mp hj, hi⟩

theorem IsLine.nodup_cellVariables {n : Nat} {ps : List Position} (h : IsLine n ps) :
    (ps.map (cellVariable n)).Nodup :=
  h.nodup.map_on fun p hp q hq heq => (cellVariable_inj (h.inside p hp).2 (h.inside q hq).2).mp heq

theorem HasCells.knows_line (h : HasCells b net) {ps : List Position} (hps : IsLine b.size ps) :
    ∀ x ∈ ps.map (cellVariable b.size), net.Knows x := by
  intro x hx
  obtain ⟨p, hp, rfl⟩ := List.mem_map.mp hx
  exact h.knows (hps.inside p hp).1 (hps.inside p hp).2

private theorem lines_express (h : HasCells b net) (kind : ModelKind) (name : Nat → String)
    {line : Nat → List Position} (hline : ∀ i < b.size, IsLine b.size (line i)) :
    ∃ css, ((List.range b.size).mapM fun i =>
        lineConstraints kind net (name i) ((line i).map (cellVariable b.size))) = .ok css ∧
      net.Expresses css.flatten fun value =>
        ∀ i < b.size, (((line i).map (cellVariable b.size)).map value).Nodup := by
  have hlines : ∀ i ∈ List.range b.size, ∃ cs,
      lineConstraints kind net (name i) ((line i).map (cellVariable b.size)) = .ok cs ∧
      net.Expresses cs fun value => (((line i).map (cellVariable b.size)).map value).Nodup := by
    intro i hi
    have hi := hline i (List.mem_range.mp hi)
    exact lineConstraints_express kind (name i) (by simpa using hi.ne_nil) hi.nodup_cellVariables
      (h.knows_line hi)
  obtain ⟨css, hcss, hexpress⟩ := Network.Expresses.of_mapM _ hlines
  exact ⟨css, hcss, hexpress.congr fun value _ => by simp only [List.mem_range]⟩

theorem mem_inequalities {q : Position × Position} : q ∈ b.inequalities ↔
    ∃ p d r, (p.row < b.size ∧ p.col < b.size) ∧ b.relation d p = some r ∧
      q = Board.ordered r p (Board.neighbour p d) := by
  simp only [Board.inequalities, List.mem_flatMap, Board.mem_positions, List.mem_filterMap,
    Option.map_eq_some_iff]
  constructor
  · rintro ⟨p, hp, d, -, r, hr, rfl⟩
    exact ⟨p, d, r, hp, hr, rfl⟩
  · rintro ⟨p, d, r, hp, hr, rfl⟩
    exact ⟨p, hp, d, by cases d <;> simp, r, hr, rfl⟩

theorem of_mem_inequalities (hb : b.Proper) {q : Position × Position} (hq : q ∈ b.inequalities) :
    (q.1.row < b.size ∧ q.1.col < b.size) ∧ (q.2.row < b.size ∧ q.2.col < b.size) ∧ q.1 ≠ q.2 := by
  obtain ⟨p, d, r, hp, hr, rfl⟩ := mem_inequalities.mp hq
  obtain ⟨-, -, hneighbour⟩ := hb.of_relation hr
  have hne : p ≠ Board.neighbour p d := by
    cases p
    cases d <;> simp [Board.neighbour]
  cases r with
  | less => exact ⟨hp, hneighbour, hne⟩
  | greater => exact ⟨hneighbour, hp, hne.symm⟩

theorem constraints_express (h : HasCells b net) (hb : b.Proper) (kind : ModelKind) :
    ∃ cs, constraints b kind net = .ok cs ∧ net.Expresses cs (Meets b) := by
  obtain ⟨rows, hrows, hrowsExpress⟩ :=
    lines_express h kind (fun i => s!"all_different row {i}") fun i => isLine_row
  obtain ⟨columns, hcolumns, hcolumnsExpress⟩ :=
    lines_express h kind (fun i => s!"all_different column {i}") fun i => isLine_column
  have hless : ∀ q ∈ b.inequalities, ∃ c,
      Constraint.lessThan net (cellVariable b.size q.1) (cellVariable b.size q.2) = .ok c ∧
      net.Expresses [c] fun value => ∀ a c, value (cellVariable b.size q.1) = some a →
        value (cellVariable b.size q.2) = some c → a < c := by
    intro q hq
    obtain ⟨hfirst, hsecond, hne⟩ := of_mem_inequalities hb hq
    exact Network.lessThan_expresses (h.knows hfirst.1 hfirst.2) (h.knows hsecond.1 hsecond.2)
      (mt (cellVariable_inj hfirst.2 hsecond.2).mp hne)
  obtain ⟨inequalities, hinequalities, hinequalitiesExpress⟩ :=
    Network.Expresses.of_mapM_single _ hless
  refine ⟨rows.flatten ++ columns.flatten ++ inequalities, ?_, ?_⟩
  · rw [constraints]
    simp only [hrows, hcolumns]
    change ((b.inequalities.mapM fun q =>
      Constraint.lessThan net (cellVariable b.size q.1) (cellVariable b.size q.2)) >>= _) = _
    rw [hinequalities]
    rfl
  · refine ((hrowsExpress.append hcolumnsExpress).append hinequalitiesExpress).congr fun value _ => ?_
    constructor
    · rintro ⟨⟨hrow, hcolumn⟩, hinequality⟩
      exact ⟨hrow, hcolumn, hinequality⟩
    · rintro ⟨hrow, hcolumn, hinequality⟩
      exact ⟨⟨hrow, hcolumn⟩, hinequality⟩

theorem postAll_eq_ok {cs : List Constraint} (hnet : net.Reachable) (hfits : ∀ c ∈ cs, c.Fits net)
    (journal : Journal) :
    ∃ net' journal', postAll net journal cs = .ok (net', journal') ∧ net'.Reachable ∧
      net'.vars = net.vars ∧ net'.constraints.toList = net.constraints.toList ++ cs := by
  induction cs generalizing net journal with
  | nil => exact ⟨net, journal, rfl, hnet, rfl, (List.append_nil _).symm⟩
  | cons c cs ih =>
    obtain ⟨hc, hcs⟩ := List.forall_mem_cons.mp hfits
    have hadd := Network.addConstraint_of_fits hc
    obtain ⟨net', journal', hpost, hreachable, hvars, hconstraints⟩ :=
      ih (.addConstraint hnet hadd) (fun d hd => (hcs d hd).mono_vars fun hv => ⟨_, hv, rfl⟩)
        (journal.record (.constraintAdded c.name c.numTuples))
    refine ⟨net', journal', ?_, hreachable, hvars, ?_⟩
    · rw [postAll, Network.post, hadd]
      exact hpost
    · rw [hconstraints, Store.toList_push, List.append_assoc]
      rfl

/-- The networks of both kinds have the same cells, and the constraints that are made for these. -/
theorem exists_build (hb : b.Proper) :
    ∃ cells, HasCells b cells ∧ ∀ kind (detail : Option Level), ∃ net journal,
      build b kind detail = .ok (net, journal) ∧ Represents b net ∧ net.vars = cells.vars ∧
        constraints b kind cells = .ok net.constraints.toList := by
  obtain ⟨cells, hadd, hreachable, hvars, hnone⟩ :=
    addCells_eq_ok hb .empty (Board.positions b.size)
  have hcells : HasCells b cells := hvars
  refine ⟨cells, hcells, fun kind detail => ?_⟩
  obtain ⟨cs, hcs, hexpress⟩ := constraints_express hcells hb kind
  obtain ⟨net, journal, hpost, hnet, hsame, hconstraints⟩ :=
    postAll_eq_ok hreachable hexpress.fits (.empty detail)
  have hall : net.constraints.toList = cs := by rw [hconstraints, hnone]; rfl
  have hsameCells : HasCells b net := by
    rw [HasCells, hsame]
    exact hcells
  have hrepresents : Represents b net :=
    ⟨hnet, hsameCells, hall.symm ▸ hexpress.of_vars_eq hsame⟩
  refine ⟨net, journal.record (.modelBuilt kind.title net.numVariables net.numConstraints), ?_,
    hrepresents, hsame, hall.symm ▸ hcs⟩
  refine bind_eq_ok.mpr ⟨cells, by rw [hadd]; rfl, ?_⟩
  refine bind_eq_ok.mpr ⟨cs, by rw [hcs]; rfl, ?_⟩
  exact bind_eq_ok.mpr ⟨(net, journal), by rw [hpost]; rfl, rfl⟩

theorem build_eq_ok (hb : b.Proper) (kind : ModelKind) (detail : Option Level) :
    ∃ net journal, build b kind detail = .ok (net, journal) ∧ Represents b net := by
  obtain ⟨cells, -, hbuild⟩ := exists_build hb
  obtain ⟨net, journal, hnet, hrepresents, -⟩ := hbuild kind detail
  exact ⟨net, journal, hnet, hrepresents⟩

variable {s : Solution}

theorem HasCells.offers_iff (h : HasCells b net) (hb : b.Proper) (hs : s.size = b.size * b.size) :
    net.Offers s ↔ (∀ i j, 1 ≤ Grid.ofSolution b.size s i j ∧ Grid.ofSolution b.size s i j ≤ b.size) ∧
      ∀ p a, b.cell p = some a → (Grid.ofSolution b.size s).entry p = a := by
  have hget := Grid.get?_of_size hs
  constructor
  · intro hoffers
    have hmem (i j : Fin b.size) :=
      (mem_cellDomain hb).mp ((h.has_iff i.isLt j.isLt).mp (hoffers (hget i j)))
    refine ⟨fun i j => (hmem i j).1, fun p a ha => ?_⟩
    obtain ⟨hrow, hcol, -⟩ := hb.of_cell ha
    exact (Grid.entry_mk _ ⟨p.row, hrow⟩ ⟨p.col, hcol⟩).trans
      ((hmem ⟨p.row, hrow⟩ ⟨p.col, hcol⟩).2 a ha)
  · rintro ⟨hrange, hgiven⟩ x a ha
    have hx : x.index < b.size * b.size := hs ▸ Store.lt_size_of_get? ha
    obtain ⟨i, j, hi, hj, rfl⟩ := exists_cellVariable hx
    have hvalue := hget ⟨i, hi⟩ ⟨j, hj⟩
    rw [ha] at hvalue
    obtain rfl := Option.some.inj hvalue
    rw [h.has_iff hi hj, mem_cellDomain hb]
    refine ⟨hrange ⟨i, hi⟩ ⟨j, hj⟩, fun v hv => ?_⟩
    exact (Grid.entry_mk _ ⟨i, hi⟩ ⟨j, hj⟩).symm.trans (hgiven _ v hv)

private theorem nodup_line_iff (hs : s.size = b.size * b.size)
    (cell : Fin b.size → Fin b.size × Fin b.size) (position : Nat → Position)
    (hposition : ∀ k, position k.val = ⟨(cell k).1, (cell k).2⟩) :
    (((((List.range b.size).map position).map (cellVariable b.size)).map s.get?)).Nodup ↔
      Function.Injective fun k => Grid.ofSolution b.size s (cell k).1 (cell k).2 := by
  have hline : (((List.range b.size).map position).map (cellVariable b.size)).map s.get? =
      (List.finRange b.size).map fun k =>
        some (Grid.ofSolution b.size s (cell k).1 (cell k).2) := by
    rw [← List.map_coe_finRange_eq_range, List.map_map, List.map_map, List.map_map]
    apply List.map_congr_left
    intro k _
    simp only [Function.comp_apply]
    rw [hposition, Grid.get?_of_size hs]
  rw [hline, List.nodup_map_iff_inj_on (List.nodup_finRange _)]
  simp only [List.mem_finRange, true_implies, Option.some.injEq]
  rfl

private theorem inequalities_iff (hb : b.Proper) (hs : s.size = b.size * b.size) :
    (∀ q ∈ b.inequalities, ∀ a c, s.get? (cellVariable b.size q.1) = some a →
      s.get? (cellVariable b.size q.2) = some c → a < c) ↔
    ∀ d p r, b.relation d p = some r → r.Holds ((Grid.ofSolution b.size s).entry p)
      ((Grid.ofSolution b.size s).entry (Board.neighbour p d)) := by
  have hless : (∀ q ∈ b.inequalities, ∀ a c, s.get? (cellVariable b.size q.1) = some a →
      s.get? (cellVariable b.size q.2) = some c → a < c) ↔
      ∀ q ∈ b.inequalities, (Grid.ofSolution b.size s).entry q.1 <
        (Grid.ofSolution b.size s).entry q.2 := by
    refine forall₂_congr fun q hq => ?_
    obtain ⟨hfirst, hsecond, -⟩ := of_mem_inequalities hb hq
    simp [Grid.get?_eq_entry hs hfirst.1 hfirst.2, Grid.get?_eq_entry hs hsecond.1 hsecond.2]
  rw [hless]
  constructor
  · intro h d p r hr
    obtain ⟨hrow, hcol, -⟩ := hb.of_relation hr
    have hq := h _ (mem_inequalities.mpr ⟨p, d, r, ⟨hrow, hcol⟩, hr, rfl⟩)
    cases r with
    | less => exact hq
    | greater => exact hq
  · intro h q hq
    obtain ⟨p, d, r, -, hr, rfl⟩ := mem_inequalities.mp hq
    cases r with
    | less => exact h d p .less hr
    | greater => exact h d p .greater hr

theorem meets_iff (hb : b.Proper) (hs : s.size = b.size * b.size) :
    Meets b s.get? ↔ (∀ i, Function.Injective (Grid.ofSolution b.size s i)) ∧
      (∀ j, Function.Injective fun i => Grid.ofSolution b.size s i j) ∧
      ∀ d p r, b.relation d p = some r → r.Holds ((Grid.ofSolution b.size s).entry p)
        ((Grid.ofSolution b.size s).entry (Board.neighbour p d)) := by
  have hrow (i : Fin b.size) := nodup_line_iff hs (fun k => (i, k)) (fun k => ⟨i, k⟩) fun _ => rfl
  have hcolumn (j : Fin b.size) := nodup_line_iff hs (fun k => (k, j)) (fun k => ⟨k, j⟩) fun _ => rfl
  constructor
  · intro h
    exact ⟨fun i => (hrow i).mp (h.rows i i.isLt), fun j => (hcolumn j).mp (h.columns j j.isLt),
      (inequalities_iff hb hs).mp h.inequalities⟩
  · rintro ⟨hrows, hcolumns, hrelated⟩
    exact ⟨fun i hi => (hrow ⟨i, hi⟩).mpr (hrows ⟨i, hi⟩),
      fun j hj => (hcolumn ⟨j, hj⟩).mpr (hcolumns ⟨j, hj⟩), (inequalities_iff hb hs).mpr hrelated⟩

/-- The solutions of the network are the grids that solve the board. -/
theorem Represents.solved_iff (h : Represents b net) (hb : b.Proper) :
    net.SolvedBy s ∧ net.Offers s ↔
      s.size = b.size * b.size ∧ b.SolvedBy (Grid.ofSolution b.size s) := by
  have hsize := h.cells.numVariables_eq
  have hconstraints (hoffers : net.Offers s) (hs : s.size = b.size * b.size) :
      (∀ c ∈ net.constraints.toList, c.SatisfiedBy s.get?) ↔ Meets b s.get? :=
    h.expresses.satisfied_iff s.get? (Network.valued_of_offers (hs.trans hsize.symm) hoffers)
  constructor
  · rintro ⟨hsolved, hoffers⟩
    have hs := hsolved.size_eq.trans hsize
    have hall : ∀ c ∈ net.constraints.toList, c.SatisfiedBy s.get? := by
      intro c hc
      obtain ⟨id, hid⟩ := Store.mem_toList.mp hc
      exact hsolved.satisfied hid
    obtain ⟨hrows, hcolumns, hrelated⟩ := (meets_iff hb hs).mp ((hconstraints hoffers hs).mp hall)
    obtain ⟨hrange, hgiven⟩ := (h.cells.offers_iff hb hs).mp hoffers
    exact ⟨hs, hrange, hrows, hcolumns, hgiven, hrelated⟩
  · rintro ⟨hs, hrange, hrows, hcolumns, hgiven, hrelated⟩
    have hoffers : net.Offers s := (h.cells.offers_iff hb hs).mpr ⟨hrange, hgiven⟩
    have hall := (hconstraints hoffers hs).mpr ((meets_iff hb hs).mpr ⟨hrows, hcolumns, hrelated⟩)
    exact ⟨⟨hs.trans hsize.symm, fun hc => hall _ (Store.mem_toList.mpr ⟨_, hc⟩)⟩, hoffers⟩

end FiniteDomain.Futoshiki.Model
