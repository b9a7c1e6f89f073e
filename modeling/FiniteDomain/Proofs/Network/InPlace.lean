import FiniteDomain.Proofs.Network.WellFormed
/-!
# Calls in place

The stores of a network are written one after the other while a call is served, and what is written
stays when the call ends early. On a well-formed network no call is left half done: each writes what
the function of the same purpose answers, or ends before it has written anything.
-/
namespace FiniteDomain

theorem Store.accommodate_nextKey {κ α β : Type} [Key κ] {s : Store κ α} {t : Store κ β}
    (h : t.size = s.size) (b : β) : t.accommodate s.nextKey b = t.push b := by
  have hsize : s.size + 1 - t.items.size = 1 := by
    rw [← h, size]
    omega
  rw [accommodate, nextKey, Key.index_ofIndex, hsize]
  simp [push]

inductive Refusal where
  | model (e : ModelError)
  | breach (b : Breach)
deriving DecidableEq

abbrev EditM := EStateM Refusal Network

namespace EditM

def attempt {ε α : Type} (refuse : ε → Refusal) : Except ε α → EditM α
  | .ok a => pure a
  | .error e => throw (refuse e)

/-- The variable is stored first. The index is then grown until it has a place for it. -/
def newVariable (name : String) (domain : List Int) : EditM VariableId := do
  let v ← attempt .model (Variable.create name domain)
  let x := (← get).vars.nextKey
  modify fun net => { net with vars := net.vars.push v }
  modify fun net => { net with containing := net.containing.accommodate x [] }
  return x

/-- Enters a constraint in the index of one variable, which has to have its place there. -/
def enter (id : ConstraintId) (x : VariableId) : EditM Unit := do
  let net ← get
  let containing ← attempt .breach (net.containing.alter x fun ids => .ok (ids ++ [id]))
  set { net with containing := containing }

/-- A valid constraint is entered in the index, variable by variable, before it is stored. -/
def addConstraint (c : Constraint) : EditM ConstraintId := do
  attempt .model ((← get).validate c)
  let id := (← get).constraints.nextKey
  c.scope.forM (enter id)
  modify fun net => { net with constraints := net.constraints.push c }
  return id

def alter (x : VariableId) (f : Variable → Except Breach Variable) : EditM Unit := do
  set (← attempt .breach ((← get).alter x f))

def restoreAll (removals : List Removal) : EditM Unit :=
  removals.forM fun r => alter r.var (·.restore r.value)

end EditM

/-- What a call leaves behind whose answer is worked out apart from the network. -/
def Network.settle {ε α : Type} (net : Network) (refuse : ε → Refusal) :
    Except ε (α × Network) → EStateM.Result Refusal Network α
  | .ok (a, net') => .ok a net'
  | .error e => .error (refuse e) net

namespace EditM

variable {net net' : Network} {c : Constraint} {x : VariableId} {id : ConstraintId}
  {f : Variable → Except Breach Variable}

theorem run_attempt {ε α : Type} (refuse : ε → Refusal) (m : Except ε α) :
    (attempt refuse m).run net = net.settle refuse (m.map (·, net)) := by
  cases m <;> rfl

theorem run_newVariable (h : net.WellFormed) (name : String) (domain : List Int) :
    (newVariable name domain).run net = net.settle .model (net.addVariable name domain) := by
  rw [newVariable, EStateM.run_bind, run_attempt, Network.addVariable]
  cases Variable.create name domain with
  | error e => rfl
  | ok v =>
    have hgrown := Store.accommodate_nextKey h.index_size ([] : List ConstraintId)
    change EStateM.Result.ok _ (Network.mk (net.vars.push v) net.constraints
      (net.containing.accommodate net.vars.nextKey [])) = _
    rw [hgrown]
    rfl

theorem run_enter (hx : Key.index x < net.containing.size) :
    (enter id x).run net =
      .ok () { net with containing := net.containing.modify x (· ++ [id]) } := by
  obtain ⟨ids, hids⟩ := Store.get?_of_lt_size hx
  have halter : net.containing.alter x (fun ids => .ok (ids ++ [id])) =
      .ok (net.containing.modify x (· ++ [id])) := by
    rw [Store.alter_of_get? (f := fun ids => .ok (ids ++ [id])) hids rfl]
    exact congrArg Except.ok (Store.modify_of_get? hids (· ++ [id]))
  rw [enter, EStateM.run_bind, EStateM.run_get]
  dsimp only
  rw [EStateM.run_bind, run_attempt, halter]
  rfl

theorem run_enter_forM {scope : List VariableId}
    (h : ∀ x ∈ scope, Key.index x < net.containing.size) :
    (scope.forM (enter id)).run net = .ok () { net with
      containing := scope.foldl (fun index x => index.modify x (· ++ [id])) net.containing } := by
  induction scope generalizing net with
  | nil => rfl
  | cons x xs ih =>
    obtain ⟨hx, hxs⟩ := List.forall_mem_cons.mp h
    rw [List.forM_eq_forM, List.forM_cons, EStateM.run_bind, run_enter hx]
    apply ih
    intro y hy
    rw [Store.size_modify]
    exact hxs y hy

/-- The check of the scope comes before the first entry, so that every entry has its place. -/
theorem run_addConstraint (h : net.WellFormed) (c : Constraint) :
    (addConstraint c).run net = net.settle .model (net.addConstraint c) := by
  rw [addConstraint, EStateM.run_bind, EStateM.run_get]
  dsimp only
  rw [EStateM.run_bind, run_attempt]
  cases hvalid : net.validate c with
  | error e =>
    rw [Network.addConstraint, hvalid]
    rfl
  | ok u =>
    have hfits : c.Fits net := Network.validate_eq_ok_iff.mp hvalid
    have hplaces : ∀ x ∈ c.scope, Key.index x < net.containing.size := by
      intro x hx
      obtain ⟨v, hv⟩ := hfits.known x hx
      exact h.index_size ▸ Store.lt_size_of_get? hv
    rw [Network.addConstraint_of_fits hfits]
    change (c.scope.forM (enter net.constraints.nextKey) >>= _).run net = _
    rw [EStateM.run_bind, run_enter_forM hplaces]
    rfl

theorem run_alter (net : Network) (x : VariableId) (f : Variable → Except Breach Variable) :
    (alter x f).run net = net.settle .breach ((net.alter x f).map ((), ·)) := by
  rw [alter, EStateM.run_bind, EStateM.run_get]
  dsimp only
  rw [EStateM.run_bind, run_attempt]
  cases net.alter x f <;> rfl

/-- The values that were put back before a breach stay where they are. -/
theorem run_restoreAll (net : Network) (removals : List Removal) :
    (restoreAll removals).run net =
      match net.restoreAll removals with
      | .ok net' => .ok () net'
      | .error (b, net') => .error (.breach b) net' := by
  induction removals generalizing net with
  | nil => rfl
  | cons r rs ih =>
    rw [restoreAll, List.forM_eq_forM, List.forM_cons, EStateM.run_bind, run_alter,
      Network.restoreAll, Network.restore]
    cases net.alter r.var (·.restore r.value) with
    | error b => rfl
    | ok net' => exact ih net'

end EditM

end FiniteDomain
