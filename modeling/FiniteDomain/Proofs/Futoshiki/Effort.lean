import FiniteDomain.Proofs.Futoshiki.Model
import FiniteDomain.Proofs.Search.Coverage
/-!
# The effort of the models of a board

The constraint that keeps a whole line of cells apart covers those that keep two of them apart. So
with arc consistency the model with one constraint a line is searched with no more decisions than
the one with a constraint a pair, and both searches report the same.
-/
namespace FiniteDomain

variable {net first second : Network} {c d : Constraint} {x y : VariableId} {line : List VariableId}
  {value : VariableId → Option Int} {condition : List Int → Prop}

theorem Constraint.Tabulates.inDomain (h : d.Tabulates net line condition)
    (hd : d.SatisfiedBy value) (hx : x ∈ line) : ∃ a, value x = some a ∧ net.InDomain x a := by
  obtain ⟨rfl, hmem⟩ := h
  obtain ⟨t, ht, hvalues⟩ := hd
  obtain ⟨hlength, hvalues⟩ := List.forall₂_iff_zip.mp hvalues
  obtain ⟨-, hdomain⟩ := List.forall₂_iff_zip.mp ((hmem t).mp ht).1
  have hboth : List.Forall₂ (fun x a => value x = some a ∧ net.InDomain x a) d.scope t :=
    List.forall₂_iff_zip.mpr ⟨hlength, fun hxa => ⟨hvalues hxa, hdomain hxa⟩⟩
  exact exists_of_forall₂ hboth hx

theorem Network.covers_of_mem (h : ∀ c ∈ second.constraints.toList,
    ∃ d ∈ first.constraints.toList, d.Covers c) : first.Covers second := by
  intro id c hc
  obtain ⟨d, hd, hcovers⟩ := h c (Store.mem_toList.mpr ⟨id, hc⟩)
  obtain ⟨id', hid'⟩ := Store.mem_toList.mp hd
  exact ⟨id', d, hid', hcovers⟩

namespace Futoshiki.Model

variable {b : Board} {cells : Network} {cs ds : List Constraint} {name name' : String}

theorem mem_of_mem_pairs (h : (x, y) ∈ pairs line) : x ∈ line ∧ y ∈ line := by
  have hall : line.Pairwise fun x y => x ∈ line ∧ y ∈ line :=
    List.pairwise_of_forall_mem_list fun x hx y hy => ⟨hx, hy⟩
  exact forall_mem_pairs.mpr hall (x, y) h

theorem allDifferent_covers (hd : d.Tabulates net line List.Nodup)
    (hc : c.Tabulates net [x, y] fun t => pairTest (· != ·) t = true) (hxy : (x, y) ∈ pairs line) :
    d.Covers c where
  scope z hz := by
    obtain ⟨hx, hy⟩ := mem_of_mem_pairs hxy
    rw [hc.scope_eq] at hz
    rw [hd.scope_eq]
    rcases List.mem_cons.mp hz with rfl | hz
    · exact hx
    · exact List.mem_singleton.mp hz ▸ hy
  satisfiedBy value hvalue := by
    obtain ⟨hx, hy⟩ := mem_of_mem_pairs hxy
    obtain ⟨a, ha, hxa⟩ := hd.inDomain hvalue hx
    obtain ⟨e, he, hye⟩ := hd.inDomain hvalue hy
    have hnodup : (line.map value).Nodup := by
      obtain ⟨t, ht, hvalues⟩ := hvalue
      rw [hd.scope_eq] at hvalues
      rw [forall₂_eq_some_iff.mp hvalues, List.nodup_map_iff (Option.some_injective _)]
      exact ((hd.mem_iff t).mp ht).2
    have hne : value x ≠ value y :=
      forall_mem_pairs (R := fun x y => value x ≠ value y).mpr (List.pairwise_map.mp hnodup) _ hxy
    rw [hc.satisfiedBy_pair_iff ha he hxa hye, bne_iff_ne]
    rintro rfl
    exact hne (ha.trans he.symm)

theorem lineConstraints_cover (hknown : ∀ x ∈ line, cells.Knows x)
    (hcs : lineConstraints .binary cells name line = .ok cs)
    (hds : lineConstraints .nary cells name' line = .ok ds) : ∀ c ∈ cs, ∃ d ∈ ds, d.Covers c := by
  intro c hc
  obtain ⟨⟨x, y⟩, hxy, hnotEquals⟩ := (exists_mem_of_forall₂ (mapM_eq_ok.mp hcs)).2 c hc
  obtain ⟨hx, hy⟩ := mem_of_mem_pairs hxy
  obtain ⟨c', hc', htabulates⟩ := Constraint.notEquals_eq_ok (hknown x hx) (hknown y hy)
  obtain rfl : c' = c := Except.ok.inj (hc'.symm.trans hnotEquals)
  obtain ⟨d, hd, htabulates'⟩ := Constraint.allDifferent_eq_ok name' hknown
  rw [lineConstraints, hd] at hds
  cases hds
  exact ⟨d, List.mem_singleton_self d, allDifferent_covers htabulates' htabulates hxy⟩

private theorem lines_cover {indices : List Nat} {line : Nat → List VariableId}
    {name : Nat → String} {css dss : List (List Constraint)}
    (hknown : ∀ i ∈ indices, ∀ x ∈ line i, cells.Knows x)
    (hcss : (indices.mapM fun i => lineConstraints .binary cells (name i) (line i)) = .ok css)
    (hdss : (indices.mapM fun i => lineConstraints .nary cells (name i) (line i)) = .ok dss) :
    ∀ c ∈ css.flatten, ∃ d ∈ dss.flatten, d.Covers c := by
  intro c hc
  obtain ⟨cs, hcs, hc⟩ := List.mem_flatten.mp hc
  obtain ⟨i, hi, hbinary⟩ := (exists_mem_of_forall₂ (mapM_eq_ok.mp hcss)).2 cs hcs
  obtain ⟨ds, hds, hnary⟩ := (exists_mem_of_forall₂ (mapM_eq_ok.mp hdss)).1 i hi
  obtain ⟨d, hd, hcovers⟩ := lineConstraints_cover (hknown i hi) hbinary hnary c hc
  exact ⟨d, List.mem_flatten.mpr ⟨ds, hds, hd⟩, hcovers⟩

/-- The constraints of the one model cover those of the other. -/
theorem constraints_cover (h : HasCells b cells) (hcs : constraints b .binary cells = .ok cs)
    (hds : constraints b .nary cells = .ok ds) : ∀ c ∈ cs, ∃ d ∈ ds, d.Covers c := by
  have hknown {line : Nat → List Position} (hline : ∀ i < b.size, IsLine b.size (line i)) :
      ∀ i ∈ List.range b.size, ∀ x ∈ (line i).map (cellVariable b.size), cells.Knows x :=
    fun i hi => h.knows_line (hline i (List.mem_range.mp hi))
  obtain ⟨rows, hrows, hcs⟩ := bind_eq_ok.mp hcs
  obtain ⟨columns, hcolumns, hcs⟩ := bind_eq_ok.mp hcs
  obtain ⟨inequalities, hinequalities, hcs⟩ := bind_eq_ok.mp hcs
  cases hcs
  obtain ⟨rows', hrows', hds⟩ := bind_eq_ok.mp hds
  obtain ⟨columns', hcolumns', hds⟩ := bind_eq_ok.mp hds
  obtain ⟨inequalities', hinequalities', hds⟩ := bind_eq_ok.mp hds
  cases hds
  obtain rfl : inequalities = inequalities' :=
    Except.ok.inj (hinequalities.symm.trans hinequalities')
  intro c hc
  rw [List.mem_append, List.mem_append] at hc
  rcases hc with (hrow | hcolumn) | hinequality
  · obtain ⟨d, hd, hcovers⟩ := lines_cover (hknown fun i => isLine_row) hrows hrows' c hrow
    exact ⟨d, by simp [hd], hcovers⟩
  · obtain ⟨d, hd, hcovers⟩ := lines_cover (hknown fun i => isLine_column) hcolumns hcolumns' c hcolumn
    exact ⟨d, by simp [hd], hcovers⟩
  · exact ⟨c, by simp [hinequality], .refl c⟩

/-- With arc consistency, variables in input order and values in domain order, runs on both models
of a board answer and report the same, and one constraint a line takes no more decisions than one a
pair. -/
theorem nary_undercuts_binary {τ : Type} [Termination τ] {unending : τ} {text : String}
    (hparse : Board.parse text = .ok b) (hunending : Termination.NeverStops unending)
    (seed : ModelKind → UInt64) (detail : ModelKind → Option Level) :
    ∃ net : ModelKind → Network,
      (∀ kind, ∃ journal, build b kind (detail kind) = .ok (net kind, journal)) ∧
      let fresh (kind : ModelKind) :=
        Solver.ofNetwork (net kind) ⟨.arc, .inputOrder, .inDomainOrder, seed kind⟩
      (∃ verdict run run',
        (fresh .nary).satisfy unending (detail .nary) = .ok (verdict, run) ∧
        (fresh .binary).satisfy unending (detail .binary) = .ok (verdict, run') ∧
        run.Undercuts run') ∧
      ∀ limit : Option Nat, ∃ result run run',
        (fresh .nary).enumerate unending (detail .nary) limit = .ok (result, run) ∧
        (fresh .binary).enumerate unending (detail .binary) limit = .ok (result, run') ∧
        run.Undercuts run' := by
  have hb := Board.proper_of_parse hparse
  obtain ⟨cells, hcells, hbuild⟩ := exists_build hb
  choose net journal hnet hrepresents hvars hconstraints using fun kind => hbuild kind (detail kind)
  refine ⟨net, fun kind => ⟨journal kind, hnet kind⟩, ?_⟩
  have hcovers : (net .nary).Covers (net .binary) :=
    Network.covers_of_mem (constraints_cover hcells (hconstraints .binary) (hconstraints .nary))
  have hsame (s : Solution) : (net .nary).SolvedBy s ∧ (net .nary).Offers s ↔
      (net .binary).SolvedBy s ∧ (net .binary).Offers s := by
    rw [(hrepresents .nary).solved_iff hb, (hrepresents .binary).solved_iff hb]
  exact Solver.undercuts_of_covers (hrepresents .nary).reachable (hrepresents .binary).reachable
    (hrepresents .nary).cells.free ((hvars .nary).trans (hvars .binary).symm) hcovers hsame hunending
    (seed .nary) (seed .binary) (detail .nary) (detail .binary)

/-- A board of three rows that both searches have to decide on, with a condition that never stops. -/
theorem nary_undercuts_binary_three :
    let text := ". < . . .\n. . .\n. . . . .\n. v .\n. . . . ."
    ∃ b, Board.parse text = .ok b ∧ Termination.NeverStops Condition.never ∧
      ∃ net : ModelKind → Network,
        (∀ kind, ∃ journal, build b kind none = .ok (net kind, journal)) ∧
        let fresh (kind : ModelKind) :=
          Solver.ofNetwork (net kind) ⟨.arc, .inputOrder, .inDomainOrder, 42⟩
        (∃ verdict run run',
          (fresh .nary).satisfy Condition.never none = .ok (verdict, run) ∧
          (fresh .binary).satisfy Condition.never none = .ok (verdict, run') ∧
          run.Undercuts run') ∧
        ∀ limit : Option Nat, ∃ result run run',
          (fresh .nary).enumerate Condition.never none limit = .ok (result, run) ∧
          (fresh .binary).enumerate Condition.never none limit = .ok (result, run') ∧
          run.Undercuts run' := by
  intro text
  let b : Board := ⟨3, [[none, none, none], [none, none, none], [none, none, none]],
    [[some .less, none], [none, none], [none, none]], [[none, none, none], [none, some .greater, none]]⟩
  have hparse : Board.parse text = .ok b := by decide +kernel
  have hunending := Condition.neverStops_never
  exact ⟨b, hparse, hunending,
    nary_undercuts_binary hparse hunending (fun _ => 42) fun _ => none⟩

end Futoshiki.Model

end FiniteDomain
