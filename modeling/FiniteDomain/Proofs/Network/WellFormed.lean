import FiniteDomain.Network.Basic
import FiniteDomain.Proofs.Domain
import FiniteDomain.Proofs.Run
import FiniteDomain.Proofs.Store
import Mathlib.Data.List.Forall2
/-!
# Well-formed networks

What holds of every network that callers can make: domains without repeats, constraints that fit
their variables, and an index that lists the constraints of each variable in order. A constraint
is accepted exactly when it fits.
-/
namespace FiniteDomain

def Network.Knows (net : Network) (x : VariableId) : Prop := ∃ v, net.vars.get? x = some v

/-- The value is in the current domain of the variable. -/
def Network.Has (net : Network) (x : VariableId) (a : Int) : Prop :=
  ∃ v, net.vars.get? x = some v ∧ v.contains a = true

/-- The latest value assigned to a variable, if it has one. -/
def Network.assigned (net : Network) (x : VariableId) : Option Int :=
  (net.vars.get? x).bind Variable.assignedValue

def Network.Free (net : Network) : Prop := ∀ x, net.assigned x = none

/-- The constraints with `x` in their scope, in order. -/
def Network.mentioning (net : Network) (x : VariableId) : List ConstraintId :=
  net.constraints.keys.filter fun id => (net.constraints.get? id).any (·.scope.contains x)

/-- The scope lists known variables, each once, and the tuples take values of the full domains. -/
structure Constraint.Fits (c : Constraint) (net : Network) : Prop where
  nonempty : c.scope ≠ []
  nodup : c.scope.Nodup
  known : ∀ x ∈ c.scope, net.Knows x
  tuples : ∀ t ∈ c.tuples,
    List.Forall₂ (fun x a => ∃ v, net.vars.get? x = some v ∧ a ∈ v.fullDomain) c.scope t

theorem Constraint.Fits.mono_vars {net net' : Network} {c : Constraint} (h : c.Fits net)
    (hv : ∀ {x v}, net.vars.get? x = some v →
      ∃ w, net'.vars.get? x = some w ∧ w.fullDomain = v.fullDomain) : c.Fits net' where
  nonempty := h.nonempty
  nodup := h.nodup
  known x hx := by
    obtain ⟨v, hget⟩ := h.known x hx
    obtain ⟨w, hw, _⟩ := hv hget
    exact ⟨w, hw⟩
  tuples t ht := by
    apply (h.tuples t ht).imp
    intro x a h
    obtain ⟨v, hget, ha⟩ := h
    obtain ⟨w, hw, hfull⟩ := hv hget
    exact ⟨w, hw, hfull ▸ ha⟩

namespace Network

/-- Variables, constraints and index agree with one another. -/
structure WellFormed (net : Network) : Prop where
  domains : ∀ {x v}, net.vars.get? x = some v → v.WellFormed
  fits : ∀ {id c}, net.constraints.get? id = some c → c.Fits net
  index_size : net.containing.size = net.vars.size
  index_eq : ∀ {x ids}, net.containing.get? x = some ids → ids = net.mentioning x

/-- The networks that callers can make. -/
inductive Reachable : Network → Prop
  | empty : Reachable .empty
  | addVariable {net net' : Network} {name : String} {domain : List Int} {x : VariableId} :
    Reachable net → net.addVariable name domain = .ok (x, net') → Reachable net'
  | addConstraint {net net' : Network} {c : Constraint} {id : ConstraintId} :
    Reachable net → net.addConstraint c = .ok (id, net') → Reachable net'
  | prune {net net' : Network} {x : VariableId} {a : Int} :
    Reachable net → net.prune x a = .ok net' → Reachable net'
  | restore {net net' : Network} {x : VariableId} {a : Int} :
    Reachable net → net.restore x a = .ok net' → Reachable net'
  | assign {net net' : Network} {x : VariableId} {a : Int} :
    Reachable net → net.assign x a = .ok net' → Reachable net'
  | unassign {net net' : Network} {x : VariableId} :
    Reachable net → net.unassign x = .ok net' → Reachable net'

variable {net net' : Network} {x y : VariableId} {a b : Int} {c : Constraint} {id : ConstraintId}

theorem ext_vars {net net' : Network} (hc : net.constraints = net'.constraints)
    (hi : net.containing = net'.containing) (hv : ∀ x, net.vars.get? x = net'.vars.get? x) :
    net = net' := by
  cases net
  cases net'
  cases hc
  cases hi
  exact congrArg (Network.mk · _ _) (Store.ext_get? hv)

theorem Has.knows (h : net.Has x a) : net.Knows x := by
  obtain ⟨v, hv, _⟩ := h
  exact ⟨v, hv⟩

theorem knows_of_assigned (h : net.assigned x = some a) : net.Knows x := by
  obtain ⟨v, hv, _⟩ := Option.bind_eq_some_iff.mp h
  exact ⟨v, hv⟩

theorem mem_mentioning :
    id ∈ net.mentioning x ↔ ∃ c, net.constraints.get? id = some c ∧ x ∈ c.scope := by
  simp only [mentioning, List.mem_filter, Store.mem_keys, Option.any_eq_true, List.contains_iff_mem]
  constructor
  · intro h
    obtain ⟨_, c, hc, hx⟩ := h
    exact ⟨c, hc, hx⟩
  · intro h
    obtain ⟨c, hc, hx⟩ := h
    exact ⟨⟨c, hc⟩, c, hc, hx⟩

theorem WellFormed.containing_of_knows (h : net.WellFormed) (hx : net.Knows x) :
    net.containing.get? x = some (net.mentioning x) := by
  obtain ⟨v, hv⟩ := hx
  obtain ⟨ids, hids⟩ := Store.get?_of_lt_size (h.index_size ▸ Store.lt_size_of_get? hv)
  rw [hids, h.index_eq hids]

private theorem checkScope_eq_ok_iff {name : String} {seen xs : List VariableId} :
    net.checkScope name seen xs = .ok () ↔
      (∀ x ∈ xs, net.Knows x) ∧ xs.Nodup ∧ ∀ x ∈ xs, x ∉ seen := by
  induction xs generalizing seen with
  | nil => simp [checkScope]
  | cons x xs ih =>
    cases hx : net.vars.get? x with
    | none => simp [checkScope, Knows, hx]
    | some v =>
      by_cases hs : x ∈ seen
      · simp [checkScope, hx, hs]
      · rw [checkScope, hx]
        simp only [List.contains_iff_mem, hs, if_false, ih]
        rw [List.forall_mem_cons, List.nodup_cons, List.forall_mem_cons]
        constructor
        · intro h
          obtain ⟨hknown, hnodup, hfresh⟩ := h
          refine ⟨⟨⟨v, hx⟩, hknown⟩, ⟨fun hm => hfresh x hm (by simp), hnodup⟩, hs, ?_⟩
          exact fun y hy hseen => hfresh y hy (List.mem_cons_of_mem _ hseen)
        · intro h
          obtain ⟨⟨_, hknown⟩, ⟨hnot, hnodup⟩, _, hfresh⟩ := h
          refine ⟨hknown, hnodup, fun y hy hmem => ?_⟩
          rcases List.mem_cons.mp hmem with rfl | hseen
          · exact hnot hy
          · exact hfresh y hy hseen

private theorem checkValues_eq_ok_iff {name : String} {xs : List VariableId} {t : List Int}
    (hlen : t.length = xs.length) : net.checkValues name xs t = .ok () ↔
      List.Forall₂ (fun x a => ∃ v, net.vars.get? x = some v ∧ a ∈ v.fullDomain) xs t := by
  induction xs generalizing t with
  | nil =>
    have : t = [] := List.length_eq_zero_iff.mp hlen
    subst this
    simp [checkValues]
  | cons x xs ih =>
    cases t with
    | nil => simp at hlen
    | cons a t =>
      rw [List.forall₂_cons, checkValues]
      cases hx : net.vars.get? x with
      | none => simp
      | some v =>
        by_cases ha : a ∈ v.fullDomain
        · simp [ha, ih (Nat.succ.inj hlen)]
        · simp [ha]

private theorem checkTuple_eq_ok_iff {t : List Int} : net.checkTuple c t = .ok () ↔
    List.Forall₂ (fun x a => ∃ v, net.vars.get? x = some v ∧ a ∈ v.fullDomain) c.scope t := by
  by_cases hlen : t.length = c.scope.length
  · rw [checkTuple, Constraint.arity, if_pos hlen, checkValues_eq_ok_iff hlen]
  · rw [checkTuple, Constraint.arity, if_neg hlen]
    simp only [reduceCtorEq, false_iff]
    intro h
    exact hlen h.length_eq.symm

theorem validate_eq_ok_iff : net.validate c = .ok () ↔ c.Fits net := by
  have hscope : net.checkScope c.name [] c.scope = .ok () ↔ _ := checkScope_eq_ok_iff
  have htuples : c.tuples.toList.forM (net.checkTuple c) = .ok () ↔ _ := forM_eq_ok
  simp only [TupleSet.mem_toList, checkTuple_eq_ok_iff] at htuples
  by_cases hempty : c.scope.isEmpty = true
  · rw [validate, if_pos hempty]
    constructor
    · intro h
      cases h
    · intro h
      exact absurd (List.isEmpty_iff.mp hempty) h.nonempty
  · rw [validate, if_neg hempty]
    change (net.checkScope c.name [] c.scope >>= fun _ => c.tuples.toList.forM (net.checkTuple c)) =
      .ok () ↔ _
    rw [bind_eq_ok]
    constructor
    · intro h
      obtain ⟨_, hs, hall⟩ := h
      obtain ⟨hknown, hnodup, _⟩ := hscope.mp hs
      exact ⟨fun h => hempty (List.isEmpty_iff.mpr h), hnodup, hknown, htuples.mp hall⟩
    · intro h
      exact ⟨(), hscope.mpr ⟨h.known, h.nodup, by simp⟩, htuples.mpr h.tuples⟩

theorem addVariable_eq_ok {name : String} {domain : List Int}
    (h : net.addVariable name domain = .ok (x, net')) :
    ∃ v, Variable.create name domain = .ok v ∧ x = net.vars.nextKey ∧
      net' = { net with vars := net.vars.push v, containing := net.containing.push [] } := by
  obtain ⟨v, hv, hr⟩ := bind_eq_ok.mp h
  cases hr
  exact ⟨v, hv, rfl, rfl⟩

theorem addVariable_of_nodup (net : Network) (name : String) {domain : List Int} (hne : domain ≠ [])
    (hnodup : domain.Nodup) : net.addVariable name domain = .ok (net.vars.nextKey,
      { net with vars := net.vars.push (.ofDomain name domain), containing := net.containing.push [] }) := by
  rw [Network.addVariable, Variable.create_eq_ok_iff.mpr ⟨hne, hnodup, rfl⟩]
  rfl

theorem WellFormed.addVariable (h : net.WellFormed) {name : String} {domain : List Int}
    (hadd : net.addVariable name domain = .ok (x, net')) : net'.WellFormed := by
  obtain ⟨v, hv, -, rfl⟩ := addVariable_eq_ok hadd
  refine ⟨?_, ?_, ?_, ?_⟩
  · intro y w hw
    rcases Store.get?_push_eq_some_iff.mp hw with ⟨_, rfl⟩ | hw
    · exact Variable.wellFormed_of_create hv
    · exact h.domains hw
  · intro id c hc
    exact (h.fits hc).mono_vars fun hw => ⟨_, Store.get?_push_of_some v hw, rfl⟩
  · simp [h.index_size]
  · intro y ids hids
    rcases Store.get?_push_eq_some_iff.mp hids with ⟨hy, rfl⟩ | hids
    · have hnone : ∀ id, id ∉ net.mentioning y := by
        intro id hid
        obtain ⟨c, hc, hmem⟩ := mem_mentioning.mp hid
        obtain ⟨w, hw⟩ := (h.fits hc).known y hmem
        have hlt := Store.lt_size_of_get? hw
        rw [hy, Store.nextKey, Key.index_ofIndex, h.index_size] at hlt
        exact Nat.lt_irrefl _ hlt
      exact (List.eq_nil_iff_forall_not_mem.mpr hnone).symm
    · exact h.index_eq hids

private theorem get?_enter (index : Store VariableId (List ConstraintId)) (id : ConstraintId)
    {scope : List VariableId} (hn : scope.Nodup) (x : VariableId) :
    (scope.foldl (fun index y => index.modify y (· ++ [id])) index).get? x =
      if x ∈ scope then (index.get? x).map (· ++ [id]) else index.get? x := by
  induction scope generalizing index with
  | nil => simp
  | cons y ys ih =>
    obtain ⟨hy, hys⟩ := List.nodup_cons.mp hn
    rw [List.foldl_cons, ih _ hys, Store.get?_modify]
    by_cases hxy : x = y
    · subst hxy
      simp [hy]
    · simp [hxy]

private theorem size_enter (index : Store VariableId (List ConstraintId)) (id : ConstraintId)
    (scope : List VariableId) :
    (scope.foldl (fun index y => index.modify y (· ++ [id])) index).size = index.size := by
  induction scope generalizing index with
  | nil => rfl
  | cons y ys ih => rw [List.foldl_cons, ih, Store.size_modify]

theorem addConstraint_eq_ok (h : net.addConstraint c = .ok (id, net')) :
    c.Fits net ∧ id = net.constraints.nextKey ∧
      net' = { net with
        constraints := net.constraints.push c
        containing := c.scope.foldl (fun index x => index.modify x (· ++ [id])) net.containing } := by
  obtain ⟨_, hv, hr⟩ := bind_eq_ok.mp h
  cases hr
  exact ⟨validate_eq_ok_iff.mp hv, rfl, rfl⟩

theorem addConstraint_of_fits (h : c.Fits net) :
    net.addConstraint c = .ok (net.constraints.nextKey, { net with
      constraints := net.constraints.push c
      containing := c.scope.foldl
        (fun index x => index.modify x (· ++ [net.constraints.nextKey])) net.containing }) := by
  rw [addConstraint, validate_eq_ok_iff.mpr h]
  rfl

theorem mentioning_push (net : Network) (c : Constraint) (x : VariableId) :
    mentioning { net with constraints := net.constraints.push c } x =
      net.mentioning x ++ if x ∈ c.scope then [net.constraints.nextKey] else [] := by
  have hold : ∀ id ∈ net.constraints.keys,
      ((net.constraints.push c).get? id).any (·.scope.contains x) =
        (net.constraints.get? id).any (·.scope.contains x) := by
    intro id hid
    obtain ⟨d, hd⟩ := Store.mem_keys.mp hid
    rw [Store.get?_push_of_some c hd, hd]
  have hnew : (net.constraints.push c).get? net.constraints.nextKey = some c :=
    Store.get?_push_eq_some_iff.mpr (.inl ⟨rfl, rfl⟩)
  rw [mentioning, mentioning, Store.keys_push, List.filter_append, List.filter_congr hold]
  by_cases hx : x ∈ c.scope <;> simp [hnew, hx]

theorem WellFormed.addConstraint (h : net.WellFormed)
    (hadd : net.addConstraint c = .ok (id, net')) : net'.WellFormed := by
  obtain ⟨hfits, rfl, rfl⟩ := addConstraint_eq_ok hadd
  refine ⟨h.domains, ?_, ?_, ?_⟩
  · intro id d hd
    rcases Store.get?_push_eq_some_iff.mp hd with ⟨_, rfl⟩ | hd
    · exact hfits.mono_vars fun hw => ⟨_, hw, rfl⟩
    · exact (h.fits hd).mono_vars fun hw => ⟨_, hw, rfl⟩
  · exact (size_enter _ _ _).trans h.index_size
  · intro x ids hids
    rw [get?_enter _ _ hfits.nodup] at hids
    refine Eq.trans ?_ (mentioning_push net c x).symm
    by_cases hx : x ∈ c.scope
    · rw [if_pos hx] at hids ⊢
      obtain ⟨old, hold, rfl⟩ := Option.map_eq_some_iff.mp hids
      rw [h.index_eq hold]
    · rw [if_neg hx] at hids ⊢
      rw [h.index_eq hids, List.append_nil]

theorem alter_eq_ok {f : Variable → Except Breach Variable} (h : net.alter x f = .ok net') :
    ∃ v w, net.vars.get? x = some v ∧ f v = .ok w ∧
      net' = { net with vars := net.vars.modify x fun _ => w } := by
  obtain ⟨vars, hvars, hr⟩ := bind_eq_ok.mp h
  obtain ⟨v, w, hv, hw, rfl⟩ := Store.alter_eq_ok hvars
  cases hr
  exact ⟨v, w, hv, hw, rfl⟩

theorem alter_of_get? {f : Variable → Except Breach Variable} {v w : Variable}
    (hv : net.vars.get? x = some v) (hw : f v = .ok w) :
    net.alter x f = .ok { net with vars := net.vars.modify x fun _ => w } := by
  rw [alter, Store.alter_of_get? hv hw]
  rfl

theorem WellFormed.of_vars (h : net.WellFormed) {vars : Store VariableId Variable}
    (hsize : vars.size = net.vars.size)
    (hget : ∀ {x w}, vars.get? x = some w →
      ∃ v, net.vars.get? x = some v ∧ w.fullDomain = v.fullDomain ∧ w.WellFormed) :
    ({ net with vars := vars } : Network).WellFormed where
  domains hw := by
    obtain ⟨_, _, _, hwf⟩ := hget hw
    exact hwf
  fits hc := by
    apply (h.fits hc).mono_vars
    intro x v hv
    obtain ⟨w, hw⟩ := Store.get?_of_lt_size (hsize ▸ Store.lt_size_of_get? hv)
    obtain ⟨v', hv', hfull, _⟩ := hget hw
    cases hv.symm.trans hv'
    exact ⟨w, hw, hfull⟩
  index_size := h.index_size.trans hsize.symm
  index_eq hids := h.index_eq hids

theorem WellFormed.alter (h : net.WellFormed) {f : Variable → Except Breach Variable}
    (hf : ∀ {v w : Variable}, v.WellFormed → f v = .ok w →
      w.fullDomain = v.fullDomain ∧ w.WellFormed)
    (halter : net.alter x f = .ok net') : net'.WellFormed := by
  obtain ⟨v, w, hv, hw, rfl⟩ := alter_eq_ok halter
  obtain ⟨hfull, hwf⟩ := hf (h.domains hv) hw
  apply h.of_vars (Store.size_modify _ _ _)
  intro y u hu
  rw [Store.get?_modify] at hu
  by_cases hy : y = x
  · subst hy
    rw [if_pos rfl, hv] at hu
    cases hu
    exact ⟨v, hv, hfull, hwf⟩
  · rw [if_neg hy] at hu
    exact ⟨u, hu, rfl, h.domains hu⟩

theorem Reachable.wellFormed (h : net.Reachable) : net.WellFormed := by
  induction h with
  | empty =>
    have hnone {α κ : Type} [Key κ] (k : κ) : (Store.empty : Store κ α).get? k = none :=
      (Store.get?_eq_none_iff _ k).mpr (Nat.zero_le _)
    refine ⟨fun hv => ?_, fun hc => ?_, rfl, fun hids => ?_⟩
    · cases (hnone _).symm.trans hv
    · cases (hnone _).symm.trans hc
    · cases (hnone _).symm.trans hids
  | addVariable _ hadd ih => exact ih.addVariable hadd
  | addConstraint _ hadd ih => exact ih.addConstraint hadd
  | prune _ hprune ih => exact ih.alter Variable.wellFormed_of_prune hprune
  | restore _ hrestore ih => exact ih.alter Variable.wellFormed_of_restore hrestore
  | assign _ hassign ih => exact ih.alter Variable.wellFormed_of_assign hassign
  | unassign _ hunassign ih => exact ih.alter Variable.wellFormed_of_unassign hunassign

/-- Two variables on the values 0 and 1, the first below the second. -/
def orderedPair : Network where
  vars := ⟨#[.ofDomain "x" [0, 1], .ofDomain "y" [0, 1]]⟩
  constraints := ⟨#[.ofTuples "x < y" [⟨0⟩, ⟨1⟩] [[0, 1]]]⟩
  containing := ⟨#[[⟨0⟩], [⟨0⟩]]⟩

theorem reachable_orderedPair : orderedPair.Reachable := by
  let x : Variable := .ofDomain "x" [0, 1]
  let y : Variable := .ofDomain "y" [0, 1]
  have hx : empty.addVariable "x" [0, 1] = .ok (⟨0⟩, ⟨⟨#[x]⟩, .empty, ⟨#[[]]⟩⟩) := rfl
  have hy : addVariable ⟨⟨#[x]⟩, .empty, ⟨#[[]]⟩⟩ "y" [0, 1] =
      .ok (⟨1⟩, ⟨⟨#[x, y]⟩, .empty, ⟨#[[], []]⟩⟩) := rfl
  have hlt : addConstraint ⟨⟨#[x, y]⟩, .empty, ⟨#[[], []]⟩⟩
      (.ofTuples "x < y" [⟨0⟩, ⟨1⟩] [[0, 1]]) = .ok (⟨0⟩, orderedPair) := rfl
  exact .addConstraint (.addVariable (.addVariable .empty hx) hy) hlt

theorem free_orderedPair : orderedPair.Free
  | ⟨0⟩ => rfl
  | ⟨1⟩ => rfl
  | ⟨_ + 2⟩ => rfl

/-- Two variables on the values 0 and 1 that have to differ, both assigned 1. -/
def clashingPair : Network where
  vars := ⟨#[⟨"x", [⟨0, true⟩, ⟨1, true⟩], 2, [1]⟩, ⟨"y", [⟨0, true⟩, ⟨1, true⟩], 2, [1]⟩]⟩
  constraints := ⟨#[.ofTuples "x != y" [⟨0⟩, ⟨1⟩] [[0, 1], [1, 0]]]⟩
  containing := ⟨#[[⟨0⟩], [⟨0⟩]]⟩

theorem reachable_clashingPair : clashingPair.Reachable := by
  let x : Variable := .ofDomain "x" [0, 1]
  let y : Variable := .ofDomain "y" [0, 1]
  let apart : Constraint := .ofTuples "x != y" [⟨0⟩, ⟨1⟩] [[0, 1], [1, 0]]
  let free : Network := ⟨⟨#[x, y]⟩, ⟨#[apart]⟩, ⟨#[[⟨0⟩], [⟨0⟩]]⟩⟩
  have hx : empty.addVariable "x" [0, 1] = .ok (⟨0⟩, ⟨⟨#[x]⟩, .empty, ⟨#[[]]⟩⟩) := rfl
  have hy : addVariable ⟨⟨#[x]⟩, .empty, ⟨#[[]]⟩⟩ "y" [0, 1] =
      .ok (⟨1⟩, ⟨⟨#[x, y]⟩, .empty, ⟨#[[], []]⟩⟩) := rfl
  have hapart : addConstraint ⟨⟨#[x, y]⟩, .empty, ⟨#[[], []]⟩⟩ apart = .ok (⟨0⟩, free) := rfl
  have hfree : free.Reachable := .addConstraint (.addVariable (.addVariable .empty hx) hy) hapart
  exact .assign (x := ⟨1⟩) (a := 1) (.assign (x := ⟨0⟩) (a := 1) hfree rfl) rfl

end Network

end FiniteDomain
