import FiniteDomain.Proofs.Constraint.Table
import FiniteDomain.Proofs.Network.Session
import Mathlib.Data.Finset.Basic
import Mathlib.Data.Finset.Dedup
/-!
# Tuples of distinct values

The tuples of distinct values are enumerated position by position, with the values chosen and the
values in use shared by all branches. Every branch hands both back, so that each tuple without a
repeat is taken down once, in the order of all combinations. What is built without a table is
accepted exactly if its scope is.
-/
namespace FiniteDomain

/-- What all branches of the enumeration share: the values chosen so far, one for each position up
to the present one, the values in use, and the tuples taken down. -/
structure Extension where
  chosen : List Int
  used : Finset Int
  tuples : List (List Int)

namespace Extension

def start : Extension := ⟨[], ∅, []⟩

def emit (s : Extension) : Extension := { s with tuples := s.tuples ++ [s.chosen] }

def choose (s : Extension) (a : Int) : Extension :=
  { s with chosen := s.chosen ++ [a], used := insert a s.used }

def release (s : Extension) (a : Int) : Extension :=
  { s with chosen := s.chosen.dropLast, used := s.used.erase a }

/-- Completes the chosen values in every way that uses no value twice. Their number tells the
position, and with it the values to go through; `levels` bounds the positions still to come. -/
def extend (domains : List (List Int)) : (levels : Nat) → Extension → Extension
  | 0, s => s.emit
  | levels + 1, s =>
    match domains[s.chosen.length]? with
    | none => s.emit
    | some values => values.foldl (fun s a =>
        if a ∈ s.used then s else (extend domains levels (s.choose a)).release a) s

end Extension

inductive Constraint.Builder where
  | ofPredicate (name : String) (scope : List VariableId) (test : List Int → Bool)
  | notEquals (x y : VariableId)
  | lessThan (x y : VariableId)
  | allDifferent (name : String) (scope : List VariableId)

namespace Constraint.Builder

def scope : Builder → List VariableId
  | ofPredicate _ scope _ => scope
  | notEquals x y => [x, y]
  | lessThan x y => [x, y]
  | allDifferent _ scope => scope

def build (net : Network) : Builder → Except Breach Constraint
  | ofPredicate name scope test => Constraint.ofPredicate net name scope test
  | notEquals x y => Constraint.notEquals net x y
  | lessThan x y => Constraint.lessThan net x y
  | allDifferent name scope => Constraint.allDifferent net name scope

end Constraint.Builder

namespace Extension

variable {domains rest : List (List Int)} {s : Extension} {levels : Nat} {a : Int}

theorem emit_eq (h : domains.length ≤ s.chosen.length) : s.emit = { s with
    tuples := s.tuples ++
      (distinctCombinations (domains.drop s.chosen.length) s.chosen).map (s.chosen ++ ·) } := by
  rw [List.drop_eq_nil_of_le h]
  simp [emit, distinctCombinations]

theorem release_choose (h : a ∉ s.used) (tuples : List (List Int)) :
    release { s.choose a with tuples } a = { s with tuples } := by
  simp [release, choose, h]

theorem foldl_branches {branch : Extension → Extension} (hused : s.used = s.chosen.toFinset)
    (hbranch : ∀ a, a ∉ s.used → ∀ tuples, branch { s.choose a with tuples } = { s.choose a with
      tuples := tuples ++ (distinctCombinations rest (a :: s.chosen)).map (s.chosen ++ a :: ·) })
    (values : List Int) (tuples : List (List Int)) :
    values.foldl (fun s a => if a ∈ s.used then s else (branch (s.choose a)).release a)
        { s with tuples } = { s with
      tuples := tuples ++ (distinctCombinations (values :: rest) s.chosen).map (s.chosen ++ ·) } := by
  induction values generalizing tuples with
  | nil => simp [distinctCombinations]
  | cons a values ih =>
    rw [List.foldl_cons]
    by_cases ha : a ∈ s.used
    · have hmem : a ∈ s.chosen := List.mem_toFinset.mp (hused ▸ ha)
      rw [if_pos ha, ih]
      simp [distinctCombinations, hmem]
    · have hmem : a ∉ s.chosen := fun hmem => ha (hused ▸ List.mem_toFinset.mpr hmem)
      have hback : (branch (choose { s with tuples } a)).release a = _ :=
        (congrArg (release · a) (hbranch a ha tuples)).trans (release_choose ha _)
      rw [if_neg ha, hback, ih]
      simp [distinctCombinations, hmem, Function.comp_def]

/-- What is chosen and in use is handed back as it was found, and each completion that uses no value
twice is taken down. -/
theorem extend_eq (hused : s.used = s.chosen.toFinset)
    (hlevels : domains.length ≤ s.chosen.length + levels) :
    extend domains levels s = { s with
      tuples := s.tuples ++
        (distinctCombinations (domains.drop s.chosen.length) s.chosen).map (s.chosen ++ ·) } := by
  induction levels generalizing s with
  | zero => exact emit_eq hlevels
  | succ levels ih =>
    rw [extend]
    cases hvalues : domains[s.chosen.length]? with
    | none => exact emit_eq (List.getElem?_eq_none_iff.mp hvalues)
    | some values =>
      obtain ⟨hlt, hget⟩ := List.getElem?_eq_some_iff.mp hvalues
      rw [List.drop_eq_getElem_cons hlt, hget]
      refine foldl_branches hused (fun a _ tuples => ?_) values s.tuples
      have hused' : (s.choose a).used = (s.choose a).chosen.toFinset := by
        ext b
        simp only [choose, hused, Finset.mem_insert, List.mem_toFinset, List.mem_append,
          List.mem_singleton]
        exact or_comm
      have hlength : (s.choose a).chosen.length = s.chosen.length + 1 := by simp [choose]
      have hlevels' : domains.length ≤ (s.choose a).chosen.length + levels := by omega
      -- the latest choice stands last in the one list and first in the other
      have hsame : distinctCombinations (domains.drop (s.chosen.length + 1)) (s.choose a).chosen =
          distinctCombinations (domains.drop (s.chosen.length + 1)) (a :: s.chosen) := by
        simp [distinctCombinations_eq_filter, choose, or_comm]
      have hbranch := ih (s := { s.choose a with tuples }) hused' hlevels'
      rw [hbranch, hlength, hsame]
      simp [choose]

theorem extend_start (domains : List (List Int)) : extend domains domains.length start =
    { start with tuples := distinctCombinations domains [] } := by
  rw [extend_eq rfl (Nat.le_add_left _ _)]
  simp [start]

end Extension

namespace Constraint

variable {net : Network} {c : Constraint} {scope : List VariableId}
  {condition : List Int → Prop}

theorem Tabulates.fits_iff (h : c.Tabulates net scope condition)
    (hknown : ∀ x ∈ scope, net.Knows x) : c.Fits net ↔ scope ≠ [] ∧ scope.Nodup := by
  constructor
  · intro hfits
    exact h.scope_eq ▸ ⟨hfits.nonempty, hfits.nodup⟩
  · rintro ⟨hne, hnodup⟩
    exact h.fits hne hnodup hknown

theorem Builder.build_eq_ok (b : Builder) (hknown : ∀ x ∈ b.scope, net.Knows x) :
    ∃ c condition, b.build net = .ok c ∧ c.Tabulates net b.scope condition := by
  cases b with
  | ofPredicate name scope test =>
    obtain ⟨c, hc, htabulates⟩ := ofPredicate_eq_ok name hknown test
    exact ⟨c, _, hc, htabulates⟩
  | notEquals x y =>
    obtain ⟨c, hc, htabulates⟩ := notEquals_eq_ok (hknown x (by simp [scope]))
      (hknown y (by simp [scope]))
    exact ⟨c, _, hc, htabulates⟩
  | lessThan x y =>
    obtain ⟨c, hc, htabulates⟩ := lessThan_eq_ok (hknown x (by simp [scope]))
      (hknown y (by simp [scope]))
    exact ⟨c, _, hc, htabulates⟩
  | allDifferent name scope =>
    obtain ⟨c, hc, htabulates⟩ := allDifferent_eq_ok name hknown
    exact ⟨c, _, hc, htabulates⟩

theorem allDifferent_eq_ofPredicate (net : Network) (name : String) (scope : List VariableId) :
    allDifferent net name scope = ofPredicate net name scope fun t => decide t.Nodup := by
  rw [allDifferent, ofPredicate]
  simp [distinctCombinations_eq_filter]

theorem nodup_of_fullDomains {lists : List (List Int)} (hwf : net.WellFormed)
    (h : fullDomains net scope = .ok lists) : ∀ values ∈ lists, values.Nodup := by
  intro values hvalues
  obtain ⟨x, -, hx⟩ := (exists_mem_of_forall₂ (mapM_eq_ok.mp h)).2 values hvalues
  obtain ⟨v, hv, hfull⟩ := bind_eq_ok.mp hx
  cases hfull
  exact (hwf.domains ((Store.fetch_eq_ok_iff _ _ _).mp hv)).nodup

/-- Whatever was pruned or assigned: of the combinations of full domains along a scope of known
variables, a constraint of distinct values has those without a repeat, as the condition says. They
are enumerated once each, and the shared values are handed back. What is built without a table is
accepted exactly if its scope is not empty and has no repeats. -/
theorem allDifferent_filters_product (hnet : net.Reachable) (name : String)
    (hknown : ∀ x ∈ scope, net.Knows x) :
    ∃ lists c, fullDomains net scope = .ok lists ∧
      allDifferent net name scope = .ok c ∧
      ofPredicate net name scope (fun t => decide t.Nodup) = .ok c ∧
      c.name = name ∧ c.scope = scope ∧
      (∀ t, t ∈ c.tuples ↔ t ∈ combinations lists ∧ t.Nodup) ∧
      (∀ t, t ∈ combinations lists ↔ List.Forall₂ net.InDomain scope t) ∧
      -- the enumeration
      (∃ tuples, Extension.extend lists lists.length .start = { Extension.start with tuples } ∧
        tuples = (combinations lists).filter (fun t => decide t.Nodup) ∧ tuples.Nodup ∧
        c = ofTuples name scope tuples) ∧
      -- the next call
      ∀ b : Builder, (∀ x ∈ b.scope, net.Knows x) → ∃ d, b.build net = .ok d ∧
        ((∃ id net', net.addConstraint d = .ok (id, net')) ↔ b.scope ≠ [] ∧ b.scope.Nodup) := by
  obtain ⟨lists, hlists, hiff⟩ := fullDomains_eq_ok hknown
  have hbuilt : allDifferent net name scope =
      .ok (ofTuples name scope (distinctCombinations lists [])) := by
    rw [allDifferent, hlists]
    rfl
  have hfilter : distinctCombinations lists [] =
      (combinations lists).filter fun t => decide t.Nodup := by
    simp [distinctCombinations_eq_filter]
  have hnodup : (distinctCombinations lists []).Nodup := by
    rw [hfilter]
    exact (nodup_combinations (nodup_of_fullDomains hnet.wellFormed hlists)).filter _
  refine ⟨lists, _, hlists, hbuilt, (allDifferent_eq_ofPredicate net name scope).symm.trans hbuilt,
    rfl, rfl, fun t => ?_, fun t => mem_combinations.trans (hiff t),
    ⟨_, Extension.extend_start lists, hfilter, hnodup, rfl⟩, fun b hb => ?_⟩
  · rw [ofTuples, TupleSet.mem_ofList, hfilter, List.mem_filter, decide_eq_true_iff]
  · obtain ⟨d, condition, hd, htabulates⟩ := b.build_eq_ok hb
    exact ⟨d, hd, Network.addConstraint_accepts_iff.trans (htabulates.fits_iff hb)⟩

/-- On the pair of ordered variables with the first assigned 1 and 0 pruned from the second: both
orders of the two values are taken down, and a difference from itself is not accepted. -/
theorem allDifferent_filters_product_prunedPair :
    let net : Network := { Network.orderedPair with
      vars := ⟨#[⟨"x", [⟨0, true⟩, ⟨1, true⟩], 2, [1]⟩, ⟨"y", [⟨0, false⟩, ⟨1, true⟩], 1, []⟩]⟩ }
    let same : Builder := .notEquals ⟨0⟩ ⟨0⟩
    net.Reachable ∧ (∀ x ∈ [⟨0⟩, ⟨1⟩], net.Knows x) ∧ (∀ x ∈ same.scope, net.Knows x) ∧
      ∃ c d, allDifferent net "apart" [⟨0⟩, ⟨1⟩] = .ok c ∧
        ofPredicate net "apart" [⟨0⟩, ⟨1⟩] (fun t => decide t.Nodup) = .ok c ∧
        c = ofTuples "apart" [⟨0⟩, ⟨1⟩] [[0, 1], [1, 0]] ∧
        same.build net = .ok d ∧ ¬∃ id net', net.addConstraint d = .ok (id, net') := by
  intro net same
  let pruned : Network := { Network.orderedPair with
    vars := ⟨#[.ofDomain "x" [0, 1], ⟨"y", [⟨0, false⟩, ⟨1, true⟩], 1, []⟩]⟩ }
  have hpruned : pruned.Reachable :=
    .prune (x := ⟨1⟩) (a := 0) Network.reachable_orderedPair rfl
  have hnet : net.Reachable := .assign (x := ⟨0⟩) (a := 1) hpruned rfl
  have hx : net.Knows ⟨0⟩ := ⟨_, rfl⟩
  have hy : net.Knows ⟨1⟩ := ⟨_, rfl⟩
  have hknown : ∀ x ∈ [⟨0⟩, ⟨1⟩], net.Knows x := by simp [hx, hy]
  have hsame : ∀ x ∈ same.scope, net.Knows x := by simp [same, Builder.scope, hx]
  obtain ⟨lists, c, hlists, hc, hpredicate, -, -, -, -, ⟨tuples, -, htuples, -, rfl⟩, hnext⟩ :=
    allDifferent_filters_product hnet "apart" hknown
  obtain ⟨d, hd, haccepts⟩ := hnext same hsame
  obtain rfl : [[0, 1], [0, 1]] = lists := Except.ok.inj hlists
  refine ⟨hnet, hknown, hsame, _, d, hc, hpredicate, by rw [htuples]; rfl, hd, ?_⟩
  rw [haccepts]
  simp [same, Builder.scope]

end Constraint

end FiniteDomain
