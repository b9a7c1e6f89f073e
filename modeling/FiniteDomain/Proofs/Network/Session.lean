import FiniteDomain.Proofs.Network.InPlace
/-!
# Sessions

A network is filled and searched by calls that come in any order, some of which do not go through.
After every such sequence the network holds what was accepted, under consecutive keys, and its index
is exact.
-/
namespace FiniteDomain

def Variable.declaration (v : Variable) : String × List Int := (v.name, v.fullDomain)

def Store.entries {κ α : Type} [Key κ] (s : Store κ α) : List (κ × α) := s.keys.zip s.toList

namespace Network

inductive Request where
  | newVariable (name : String) (domain : List Int)
  | addConstraint (c : Constraint)
  | change (x : VariableId) (op : DomainOp)
  | restoreAll (removals : List Removal)

inductive Reply where
  | variable (x : VariableId)
  | constraint (id : ConstraintId)
  | done
deriving DecidableEq

structure Exchange where
  request : Request
  answer : Except Refusal Reply

def Request.serve : Request → EditM Reply
  | newVariable name domain => return .variable (← EditM.newVariable name domain)
  | addConstraint c => return .constraint (← EditM.addConstraint c)
  | change x op => do
    EditM.alter x op.apply
    return .done
  | restoreAll removals => do
    EditM.restoreAll removals
    return .done

/-- Serves a call. The network goes on from where it was left, also when the call was refused. -/
def Request.exchange (r : Request) (net : Network) : Exchange × Network :=
  match r.serve.run net with
  | .ok reply net' => (⟨r, .ok reply⟩, net')
  | .error e net' => (⟨r, .error e⟩, net')

def session (net : Network) : List Request → List Exchange × Network
  | [] => ([], net)
  | r :: rs =>
    let served := r.exchange net
    let rest := served.2.session rs
    (served.1 :: rest.1, rest.2)

def Exchange.created : Exchange → Option (VariableId × String × List Int)
  | ⟨.newVariable name domain, .ok (.variable x)⟩ => some (x, name, domain)
  | _ => none

def Exchange.added : Exchange → Option (ConstraintId × Constraint)
  | ⟨.addConstraint c, .ok (.constraint id)⟩ => some (id, c)
  | _ => none

/-- The network holds the variables and constraints of the calls that went through. -/
structure Recorded (log : List Exchange) (net : Network) : Prop where
  reachable : net.Reachable
  created_eq : log.filterMap Exchange.created =
    net.vars.entries.map fun entry => (entry.1, entry.2.declaration)
  added_eq : log.filterMap Exchange.added = net.constraints.entries

end Network

namespace Store
variable {κ α : Type} [Key κ]

theorem entries_push (s : Store κ α) (a : α) :
    (s.push a).entries = s.entries ++ [(s.nextKey, a)] := by
  have hlength : s.keys.length = s.toList.length := by simp [keys]
  rw [entries, keys_push, toList_push, List.zip_append hlength]
  rfl

theorem getElem?_entries (s : Store κ α) (i : Nat) :
    s.entries[i]? = (s.get? (Key.ofIndex i)).map fun a => ((Key.ofIndex i : κ), a) := by
  rw [entries, List.zip, List.getElem?_zipWith, keys, List.getElem?_map, get?_eq,
    Key.index_ofIndex]
  by_cases hi : i < s.size
  · rw [List.getElem?_range hi]
    cases s.toList[i]? <;> rfl
  · have hnone : s.toList[i]? = none := by simpa using Nat.le_of_not_lt hi
    rw [hnone]
    cases (List.range s.size)[i]? <;> rfl

theorem entries_modify_map [DecidableEq κ] {β : Type} {s : Store κ α} {k : κ} {a b : α}
    (hk : s.get? k = some a) {g : κ × α → β} (hg : g (k, b) = g (k, a)) :
    (s.modify k fun _ => b).entries.map g = s.entries.map g := by
  apply List.ext_getElem?
  intro i
  rw [List.getElem?_map, List.getElem?_map, getElem?_entries, getElem?_entries, get?_modify]
  by_cases hi : (Key.ofIndex i : κ) = k
  · rw [if_pos hi, hi, hk]
    simp [hg]
  · rw [if_neg hi]

theorem pairwise_keys (s : Store κ α) :
    s.keys.Pairwise fun j k => Key.index j < Key.index k := by
  rw [keys, List.pairwise_map]
  simpa only [Key.index_ofIndex] using List.pairwise_lt_range

end Store

namespace Network
variable {net net' : Network} {log : List Exchange} {e : Exchange} {x : VariableId} {op : DomainOp}
  {c : Constraint} {id : ConstraintId}

theorem exchange_newVariable (h : net.WellFormed) (name : String) (domain : List Int) :
    (Request.newVariable name domain).exchange net =
      match net.addVariable name domain with
      | .ok (x, net') => (⟨.newVariable name domain, .ok (.variable x)⟩, net')
      | .error e => (⟨.newVariable name domain, .error (.model e)⟩, net) := by
  rw [Request.exchange, Request.serve, EStateM.run_bind, EditM.run_newVariable h]
  cases net.addVariable name domain <;> rfl

theorem exchange_addConstraint (h : net.WellFormed) (c : Constraint) :
    (Request.addConstraint c).exchange net =
      match net.addConstraint c with
      | .ok (id, net') => (⟨.addConstraint c, .ok (.constraint id)⟩, net')
      | .error e => (⟨.addConstraint c, .error (.model e)⟩, net) := by
  rw [Request.exchange, Request.serve, EStateM.run_bind, EditM.run_addConstraint h]
  cases net.addConstraint c <;> rfl

theorem exchange_change (net : Network) (x : VariableId) (op : DomainOp) :
    (Request.change x op).exchange net =
      match net.alter x op.apply with
      | .ok net' => (⟨.change x op, .ok .done⟩, net')
      | .error b => (⟨.change x op, .error (.breach b)⟩, net) := by
  rw [Request.exchange, Request.serve, EStateM.run_bind, EditM.run_alter]
  cases net.alter x op.apply <;> rfl

theorem exchange_restoreAll (net : Network) (removals : List Removal) :
    (Request.restoreAll removals).exchange net =
      match net.restoreAll removals with
      | .ok net' => (⟨.restoreAll removals, .ok .done⟩, net')
      | .error (b, net') => (⟨.restoreAll removals, .error (.breach b)⟩, net') := by
  rw [Request.exchange, Request.serve, EStateM.run_bind, EditM.run_restoreAll]
  cases net.restoreAll removals <;> rfl

theorem Recorded.empty : Recorded [] .empty := ⟨.empty, rfl, rfl⟩

theorem Recorded.skip (h : Recorded log net) (hcreated : e.created = none)
    (hadded : e.added = none) : Recorded (log ++ [e]) net where
  reachable := h.reachable
  created_eq := by simp [hcreated, h.created_eq]
  added_eq := by simp [hadded, h.added_eq]

theorem Recorded.addVariable (h : Recorded log net) {name : String} {domain : List Int}
    (hadd : net.addVariable name domain = .ok (x, net')) :
    Recorded (log ++ [⟨.newVariable name domain, .ok (.variable x)⟩]) net' := by
  obtain ⟨v, hv, rfl, rfl⟩ := addVariable_eq_ok hadd
  obtain ⟨-, -, rfl⟩ := Variable.create_eq_ok_iff.mp hv
  refine ⟨.addVariable h.reachable hadd, ?_, ?_⟩
  · have hdeclared : (Variable.ofDomain name domain).declaration = (name, domain) :=
      Prod.ext rfl (Variable.fullDomain_ofDomain name domain)
    rw [List.filterMap_append, h.created_eq, Store.entries_push, List.map_append]
    simp [Exchange.created, hdeclared]
  · rw [List.filterMap_append, h.added_eq]
    exact List.append_nil _

theorem Recorded.addConstraint (h : Recorded log net)
    (hadd : net.addConstraint c = .ok (id, net')) :
    Recorded (log ++ [⟨.addConstraint c, .ok (.constraint id)⟩]) net' := by
  obtain ⟨-, rfl, rfl⟩ := addConstraint_eq_ok hadd
  refine ⟨.addConstraint h.reachable hadd, ?_, ?_⟩
  · rw [List.filterMap_append, h.created_eq]
    exact List.append_nil _
  · rw [List.filterMap_append, h.added_eq, Store.entries_push]
    rfl

theorem Reachable.change (h : net.Reachable) (halter : net.alter x op.apply = .ok net') :
    net'.Reachable := by
  cases op with
  | prune a => exact .prune h halter
  | restore a => exact .restore h halter
  | assign a => exact .assign h halter
  | unassign => exact .unassign h halter

theorem declaration_of_apply {v w : Variable} (hv : v.WellFormed) (h : op.apply v = .ok w) :
    w.declaration = v.declaration := by
  rw [Variable.declaration, Variable.name_of_apply h, (Variable.wellFormed_of_apply hv h).1,
    Variable.declaration]

theorem Recorded.change (h : Recorded log net) (halter : net.alter x op.apply = .ok net') :
    Recorded log net' := by
  have hreachable := h.reachable.change halter
  obtain ⟨v, w, hv, hw, rfl⟩ := alter_eq_ok halter
  have hkept := declaration_of_apply (h.reachable.wellFormed.domains hv) hw
  refine ⟨hreachable, ?_, h.added_eq⟩
  rw [h.created_eq, Store.entries_modify_map hv]
  rw [hkept]

theorem Recorded.restoreAll (h : Recorded log net) (removals : List Removal) :
    match net.restoreAll removals with
    | .ok net' => Recorded log net'
    | .error (_, net') => Recorded log net' := by
  induction removals generalizing net with
  | nil => exact h
  | cons r rs ih =>
    rw [Network.restoreAll]
    cases hr : net.restore r.var r.value with
    | error b => exact h
    | ok next =>
      have halter : net.alter r.var (DomainOp.restore r.value).apply = .ok next := hr
      exact ih (h.change halter)

/-- Every call keeps the record. -/
theorem Recorded.exchange (h : Recorded log net) (r : Request) :
    Recorded (log ++ [(r.exchange net).1]) (r.exchange net).2 := by
  have hwf := h.reachable.wellFormed
  cases r with
  | newVariable name domain =>
    rw [exchange_newVariable hwf]
    cases hadd : net.addVariable name domain with
    | error m => exact h.skip rfl rfl
    | ok made => exact h.addVariable hadd
  | addConstraint c =>
    rw [exchange_addConstraint hwf]
    cases hadd : net.addConstraint c with
    | error m => exact h.skip rfl rfl
    | ok made => exact h.addConstraint hadd
  | change x op =>
    rw [exchange_change]
    cases halter : net.alter x op.apply with
    | error b => exact h.skip rfl rfl
    | ok next => exact (h.change halter).skip rfl rfl
  | restoreAll removals =>
    have hrestored := h.restoreAll removals
    rw [exchange_restoreAll]
    cases hall : net.restoreAll removals with
    | error left =>
      rw [hall] at hrestored
      exact hrestored.skip rfl rfl
    | ok next =>
      rw [hall] at hrestored
      exact hrestored.skip rfl rfl

theorem Recorded.session (h : Recorded log net) (requests : List Request) :
    Recorded (log ++ (net.session requests).1) (net.session requests).2 := by
  induction requests generalizing log net with
  | nil => simpa [Network.session] using h
  | cons r rs ih => simpa [Network.session] using ih (h.exchange r)

theorem request_exchange (r : Request) (net : Network) : (r.exchange net).1.request = r := by
  rw [Request.exchange]
  cases r.serve.run net <;> rfl

theorem map_request_session (net : Network) (requests : List Request) :
    (net.session requests).1.map Exchange.request = requests := by
  induction requests generalizing net with
  | nil => rfl
  | cons r rs ih => rw [Network.session, List.map_cons, request_exchange, ih]

theorem session_append (net : Network) (rs rs' : List Request) :
    (net.session (rs ++ rs')).2 = ((net.session rs).2.session rs').2 := by
  induction rs generalizing net with
  | nil => rfl
  | cons r rs ih => exact ih _

/-- What callers can make is what is left after a sequence of calls. -/
theorem reachable_iff_session :
    net.Reachable ↔ ∃ requests, (Network.empty.session requests).2 = net := by
  constructor
  · have hnext {net net' : Network} (r : Request) (hnet : ∃ rs, (Network.empty.session rs).2 = net)
        (hr : (r.exchange net).2 = net') : ∃ rs, (Network.empty.session rs).2 = net' := by
      obtain ⟨rs, rfl⟩ := hnet
      exact ⟨rs ++ [r], (session_append _ rs [r]).trans hr⟩
    have hchange {net net' : Network} {x : VariableId} (op : DomainOp)
        (hnet : ∃ rs, (Network.empty.session rs).2 = net)
        (halter : net.alter x op.apply = .ok net') : ∃ rs, (Network.empty.session rs).2 = net' := by
      apply hnext (.change x op) hnet
      rw [exchange_change, halter]
    intro h
    induction h with
    | empty => exact ⟨[], rfl⟩
    | @addVariable net net' name domain x hnet hadd ih =>
      apply hnext (.newVariable name domain) ih
      rw [exchange_newVariable hnet.wellFormed, hadd]
    | @addConstraint net net' c id hnet hadd ih =>
      apply hnext (.addConstraint c) ih
      rw [exchange_addConstraint hnet.wellFormed, hadd]
    | prune _ h ih => exact hchange (.prune _) ih h
    | restore _ h ih => exact hchange (.restore _) ih h
    | assign _ h ih => exact hchange (.assign _) ih h
    | unassign _ h ih => exact hchange .unassign ih h
  · rintro ⟨requests, rfl⟩
    exact (Recorded.empty.session requests).reachable

theorem Reachable.exchange (h : net.Reachable) (r : Request) : (r.exchange net).2.Reachable := by
  obtain ⟨requests, rfl⟩ := reachable_iff_session.mp h
  exact reachable_iff_session.mpr ⟨requests ++ [r], session_append .empty requests [r]⟩

theorem WellFormed.constraintsContaining_eq_ok (h : net.WellFormed) (hx : net.Knows x) :
    ∃ ids, net.constraintsContaining x = .ok ids ∧
      ids.Pairwise (fun i j => i.index < j.index) ∧
      ∀ id, id ∈ ids ↔ ∃ c, net.constraints.get? id = some c ∧ x ∈ c.scope := by
  refine ⟨net.mentioning x, Store.fetch_of_get? (h.containing_of_knows hx), ?_, ?_⟩
  · exact net.constraints.pairwise_keys.filter _
  · exact fun id => mem_mentioning

theorem settle_eq_ok_iff {ε α : Type} {refuse : ε → Refusal} {m : Except ε (α × Network)} :
    (∃ a net', net.settle refuse m = .ok a net') ↔ ∃ a net', m = .ok (a, net') := by
  cases m with
  | ok made => simp [settle, Prod.ext_iff]
  | error e => simp [settle]

theorem eq_of_settle_eq_error {ε α : Type} {refuse : ε → Refusal} {m : Except ε (α × Network)}
    {e : Refusal} (h : net.settle refuse m = .error e net') : net' = net := by
  cases m with
  | ok made => cases h
  | error e =>
    cases h
    rfl

theorem addVariable_accepts_iff {name : String} {domain : List Int} :
    (∃ x net', net.addVariable name domain = .ok (x, net')) ↔ domain ≠ [] ∧ domain.Nodup := by
  constructor
  · rintro ⟨x, net', hadd⟩
    obtain ⟨v, hv, -, -⟩ := addVariable_eq_ok hadd
    obtain ⟨hne, hnodup, -⟩ := Variable.create_eq_ok_iff.mp hv
    exact ⟨hne, hnodup⟩
  · rintro ⟨hne, hnodup⟩
    exact ⟨_, _, addVariable_of_nodup net name hne hnodup⟩

theorem addConstraint_accepts_iff :
    (∃ id net', net.addConstraint c = .ok (id, net')) ↔ c.Fits net := by
  constructor
  · rintro ⟨id, net', hadd⟩
    exact (addConstraint_eq_ok hadd).1
  · exact fun hfits => ⟨_, _, addConstraint_of_fits hfits⟩

/-- Whatever calls a network was given, and whatever became of them: it holds what was accepted, in
order and under consecutive keys, and its index is exact. A next variable or constraint is accepted
exactly if it is as it should be, and a call that is refused has written nothing. -/
theorem session_registry (requests : List Request) :
    ∃ log net, Network.empty.session requests = (log, net) ∧
      log.map Exchange.request = requests ∧
      -- what is held, and under which keys
      log.filterMap Exchange.created =
        net.vars.entries.map (fun entry => (entry.1, entry.2.declaration)) ∧
      log.filterMap Exchange.added = net.constraints.entries ∧
      net.vars.keys = (List.range net.numVariables).map VariableId.mk ∧
      net.constraints.keys = (List.range net.numConstraints).map ConstraintId.mk ∧
      (∀ id c, net.constraints.get? id = some c → c.Fits net) ∧
      -- the index
      (∀ x, net.Knows x → ∃ ids, net.constraintsContaining x = .ok ids ∧
        ids.Pairwise (fun i j => i.index < j.index) ∧
        ∀ id, id ∈ ids ↔ ∃ c, net.constraints.get? id = some c ∧ x ∈ c.scope) ∧
      -- the next call
      (∀ name domain,
        (EditM.newVariable name domain).run net =
          net.settle .model (net.addVariable name domain) ∧
        ((∃ x net', (EditM.newVariable name domain).run net = .ok x net') ↔
          domain ≠ [] ∧ domain.Nodup) ∧
        ∀ e net', (EditM.newVariable name domain).run net = .error e net' → net' = net) ∧
      (∀ c,
        (EditM.addConstraint c).run net = net.settle .model (net.addConstraint c) ∧
        ((∃ id net', (EditM.addConstraint c).run net = .ok id net') ↔ c.Fits net) ∧
        ∀ e net', (EditM.addConstraint c).run net = .error e net' → net' = net) ∧
      ∀ x op e net', (EditM.alter x (DomainOp.apply op)).run net = .error e net' → net' = net := by
  have hrecorded := Recorded.empty.session requests
  have hrequests := map_request_session .empty requests
  generalize hsession : Network.empty.session requests = served at hrecorded hrequests
  obtain ⟨log, net⟩ := served
  have hwf := hrecorded.reachable.wellFormed
  refine ⟨log, net, rfl, hrequests, hrecorded.created_eq, hrecorded.added_eq, rfl, rfl,
    fun _ _ hc => hwf.fits hc, fun _ hx => hwf.constraintsContaining_eq_ok hx, ?_, ?_, ?_⟩
  · intro name domain
    have hrun := EditM.run_newVariable hwf name domain
    refine ⟨hrun, ?_, fun e net' he => eq_of_settle_eq_error (hrun.symm.trans he)⟩
    rw [hrun, settle_eq_ok_iff, addVariable_accepts_iff]
  · intro c
    have hrun := EditM.run_addConstraint hwf c
    refine ⟨hrun, ?_, fun e net' he => eq_of_settle_eq_error (hrun.symm.trans he)⟩
    rw [hrun, settle_eq_ok_iff, addConstraint_accepts_iff]
  · intro x op e net' he
    exact eq_of_settle_eq_error ((EditM.run_alter net x op.apply).symm.trans he)

/-- Two variables, an empty domain and two scopes that are refused, and a constraint that allows a
value which is pruned before it comes. The first variable is in that constraint alone. -/
theorem session_registry_after_refusals :
    let requests : List Request :=
      [.newVariable "x" [0, 1], .newVariable "z" [], .newVariable "y" [0, 1],
        .addConstraint (.ofTuples "xyx" [⟨0⟩, ⟨1⟩, ⟨0⟩] []), .change ⟨0⟩ (.prune 1),
        .addConstraint (.ofTuples "x != y" [⟨0⟩, ⟨1⟩] [[0, 1], [1, 0]]),
        .addConstraint (.ofTuples "far" [⟨1⟩, ⟨5⟩] [])]
    (Network.empty.session requests).1.map Exchange.answer =
        [.ok (.variable ⟨0⟩), .error (.model (.emptyDomain "z")), .ok (.variable ⟨1⟩),
          .error (.model (.duplicateScopeVariable "xyx" "x")), .ok .done,
          .ok (.constraint ⟨0⟩), .error (.model (.unknownVariable "far"))] ∧
      ∃ log net, Network.empty.session requests = (log, net) ∧
        net.Knows ⟨0⟩ ∧ ∃ ids, net.constraintsContaining ⟨0⟩ = .ok ids ∧
          ids.Pairwise (fun i j => i.index < j.index) ∧
          ∀ id, id ∈ ids ↔ ∃ c, net.constraints.get? id = some c ∧ ⟨0⟩ ∈ c.scope := by
  intro requests
  obtain ⟨log, net, hsession, -, -, -, -, -, -, hindex, -⟩ := session_registry requests
  have hknows : (Network.empty.session requests).2.Knows ⟨0⟩ := ⟨_, rfl⟩
  rw [hsession] at hknows
  exact ⟨rfl, log, net, hsession, hknows, hindex ⟨0⟩ hknows⟩

end Network

end FiniteDomain
