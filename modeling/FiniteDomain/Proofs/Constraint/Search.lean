import FiniteDomain.Proofs.Constraint.Odometer
/-!
# Two searches for a support

A support is found by trying the combinations of candidates or by looking through the tuples. Where
every position has a candidate both searches come to the same answer, so that it does not show which
of them is made.
-/
namespace FiniteDomain

/-- The product of the numbers of candidates, counted no further than `top`. -/
def cappedCombinations (top : Nat) (lists : List (List Int)) : Nat :=
  lists.foldl (fun product values => min (product * values.length) top) 1

theorem forall_ne_nil {lists : List (List Int)} (h : lists.any List.isEmpty = false) :
    ∀ values ∈ lists, values ≠ [] := by
  rintro values hvalues rfl
  rw [List.any_eq_true.mpr ⟨[], hvalues, rfl⟩] at h
  cases h

/-- The search for a support, step by step: the odometer if the combinations, counted up to `top`,
are no more than the tuples, else the scan. -/
def Constraint.search (c : Constraint) (top : Nat) (lists : List (List Int)) : Bool :=
  match h : lists.any List.isEmpty with
  | true => false
  | false =>
    if cappedCombinations top lists ≤ c.numTuples then
      (Odometer.spin c.check (Odometer.start lists (forall_ne_nil h))).found
    else c.tuples.any (drawnFrom lists)

variable {net : Network} {c : Constraint} {id : ConstraintId} {x y : VariableId} {a : Int}
  {lists : List (List Int)} {accepts : List Int → Bool}

theorem Odometer.found_iff (h : ∀ values ∈ lists, values ≠ []) :
    (spin accepts (start lists h)).found = true ↔
      ∃ t, List.Forall₂ (fun values b => b ∈ values) lists t ∧ accepts t = true := by
  simp only [← mem_combinations]
  have hspec := spin_spec accepts (start lists h)
  rw [upcoming_start] at hspec
  cases hfound : (spin accepts (start lists h)).found with
  | true =>
    rw [hfound, if_pos rfl] at hspec
    obtain ⟨before, t, after, hall, -, -, ht⟩ := hspec
    exact iff_of_true rfl ⟨t, by simp [hall], ht⟩
  | false =>
    rw [hfound, if_neg Bool.false_ne_true] at hspec
    apply iff_of_false Bool.false_ne_true
    intro haccepted
    obtain ⟨t, ht, haccepts⟩ := haccepted
    rw [hspec.2 t ht] at haccepts
    cases haccepts

namespace Constraint

theorem scan_iff (hlen : ∀ t ∈ c.tuples, lists.length = t.length) {order : List (List Int)}
    (horder : order.Perm c.tuples.toList) : order.any (drawnFrom lists) = true ↔
      ∃ t ∈ c.tuples, List.Forall₂ (fun values b => b ∈ values) lists t := by
  rw [List.any_eq_true]
  apply exists_congr
  intro t
  rw [horder.mem_iff, TupleSet.mem_toList]
  exact and_congr_right fun ht => drawnFrom_eq_true_iff (hlen t ht)

theorem search_eq_admitsSome (hlen : ∀ t ∈ c.tuples, lists.length = t.length) (top : Nat) :
    c.search top lists = c.admitsSome lists := by
  rw [Bool.eq_iff_iff, admitsSome_eq_true_iff hlen]
  unfold search
  split
  · next hempty =>
    have hnone := admitsSome_eq_true_iff hlen
    rw [admitsSome, if_pos hempty] at hnone
    exact hnone
  · next hempty =>
    split
    · rw [Odometer.found_iff]
      exact exists_congr fun t => and_comm
    · rw [TupleSet.any_eq]
      exact scan_iff hlen (.refl _)

theorem nodup_of_candidatesOf (hwf : net.WellFormed) {values : List Int}
    (h : candidatesOf net.vars x a y = .ok values) : values.Nodup := by
  rw [candidatesOf] at h
  split at h
  · cases h
    exact List.nodup_singleton a
  · obtain ⟨v, hv, h⟩ := bind_eq_ok.mp h
    cases h
    split
    · exact List.nodup_singleton _
    · exact (hwf.domains ((Store.fetch_eq_ok_iff _ _ _).mp hv)).nodup_currentDomain

/-- The question for a support of a value in a constraint of a network is answered by whether there
is one. Where every position has a candidate, the odometer and the scan of the tuples both give that
answer, and the odometer shows every combination of candidates once, up to the first that is a
satisfying tuple. -/
theorem hasSupport_exact (hnet : net.Reachable) (hc : net.constraints.get? id = some c)
    (x : VariableId) (a : Int) :
    ∃ lists found, c.scope.mapM (candidatesOf net.vars x a) = .ok lists ∧
      c.hasSupport net.vars x a = .ok found ∧
      (found = true ↔ ∃ t ∈ c.tuples, List.Forall₂
        (fun y b => if y = x then b = a else net.Choice net.Has y b) c.scope t) ∧
      (∀ h : ∀ values ∈ lists, values ≠ [],
        let odometer := Odometer.spin c.check (Odometer.start lists h)
        odometer.found = found ∧
        (∀ order : List (List Int), order.Perm c.tuples.toList → order.any (drawnFrom lists) = found) ∧
        (combinations lists).Nodup ∧
        (∀ t, t ∈ combinations lists ↔ List.Forall₂ (fun values b => b ∈ values) lists t) ∧
        if found then
          ∃ before t after, combinations lists = before ++ t :: after ∧
            odometer.tried = before ++ [t] ∧ (∀ u ∈ before, u ∉ c.tuples) ∧ t ∈ c.tuples
        else odometer.tried = combinations lists) ∧
      ∀ top, c.search top lists = found := by
  have hwf := hnet.wellFormed
  have hfits := hwf.fits hc
  obtain ⟨found, hfound, hiff⟩ := hasSupport_eq_ok hfits x a
  obtain ⟨lists, hlists, hanswer⟩ := bind_eq_ok.mp hfound
  have hadmits : c.admitsSome lists = found := Except.ok.inj hanswer
  have hcandidates := mapM_eq_ok.mp hlists
  have hlen : ∀ t ∈ c.tuples, lists.length = t.length := fun t ht =>
    hcandidates.length_eq.symm.trans (hfits.length_eq ht)
  have hdrawn := admitsSome_eq_true_iff hlen
  rw [hadmits] at hdrawn
  refine ⟨lists, found, hlists, hfound, hiff, ?_, fun top => ?_⟩
  · intro h odometer
    have hodometer : odometer.found = found := by
      rw [Bool.eq_iff_iff, hdrawn, Odometer.found_iff]
      exact exists_congr fun t => and_comm
    refine ⟨hodometer, ?_, ?_, fun t => mem_combinations, ?_⟩
    · intro order horder
      rw [Bool.eq_iff_iff, hdrawn, scan_iff hlen horder]
    · apply nodup_combinations
      intro values hvalues
      obtain ⟨y, -, hy⟩ := (exists_mem_of_forall₂ hcandidates).2 values hvalues
      exact nodup_of_candidatesOf hwf hy
    · have hspec := Odometer.spin_spec c.check (Odometer.start lists h)
      rw [Odometer.upcoming_start, show (Odometer.spin _ _).found = found from hodometer] at hspec
      cases found with
      | true =>
        obtain ⟨before, t, after, hall, htried, hbefore, ht⟩ := hspec
        refine ⟨before, t, after, hall, htried, fun u hu => ?_, ht⟩
        rw [TupleSet.mem_iff, ← check, hbefore u hu]
        exact Bool.false_ne_true
      | false => exact hspec.1
  · rw [search_eq_admitsSome hlen, hadmits]

/-- The value 0 of the first variable of an ordered pair: of the candidates 0 and 1 for the second,
the odometer tries 0 in vain and stops at 1. -/
theorem hasSupport_exact_orderedPair :
    let c : Constraint := .ofTuples "x < y" [⟨0⟩, ⟨1⟩] [[0, 1]]
    Network.orderedPair.Reachable ∧ Network.orderedPair.constraints.get? ⟨0⟩ = some c ∧
      (∀ values ∈ [[0], [0, 1]], values ≠ ([] : List Int)) ∧
      c.scope.mapM (candidatesOf Network.orderedPair.vars ⟨0⟩ 0) = .ok [[0], [0, 1]] ∧
      c.hasSupport Network.orderedPair.vars ⟨0⟩ 0 = .ok true ∧
      ∃ h, (Odometer.spin c.check (Odometer.start [[0], [0, 1]] h)).tried = [[0, 0], [0, 1]] ∧
        ∀ top, c.search top [[0], [0, 1]] = true := by
  intro c
  have hlists : c.scope.mapM (candidatesOf Network.orderedPair.vars ⟨0⟩ 0) = .ok [[0], [0, 1]] := rfl
  have hanswer : c.hasSupport Network.orderedPair.vars ⟨0⟩ 0 = .ok true := rfl
  have hc : Network.orderedPair.constraints.get? ⟨0⟩ = some c := rfl
  have hne : ∀ values ∈ [[0], [0, 1]], values ≠ ([] : List Int) := by decide
  obtain ⟨lists, found, hlists', hanswer', -, hsearch, htop⟩ :=
    hasSupport_exact Network.reachable_orderedPair hc ⟨0⟩ 0
  cases Except.ok.inj (hlists.symm.trans hlists')
  cases Except.ok.inj (hanswer.symm.trans hanswer')
  obtain ⟨-, -, -, -, before, t, after, hall, htried, hbefore, ht⟩ := hsearch hne
  refine ⟨Network.reachable_orderedPair, hc, hne, hlists, hanswer, hne, ?_, htop⟩
  have hallowed : ∀ u, u ∈ c.tuples ↔ u = [0, 1] := by simp [c, ofTuples]
  have hcombinations : combinations [[0], [0, 1]] = [[0, 0], [0, 1]] := rfl
  rw [htried]
  rw [hcombinations] at hall
  cases (hallowed t).mp ht
  cases before with
  | nil => simp at hall
  | cons b rest =>
    cases rest with
    | nil =>
      obtain ⟨rfl, -⟩ := List.cons.inj hall
      rfl
    | cons d rest => simp at hall

end Constraint

end FiniteDomain
