import FiniteDomain.Proofs.Propagation.Pass
/-!
# Disciplined passes

A pass may change a network by removals that go on its record, and by assignments that it takes
back. Whatever else it does, its record is then exact: it says what has gone, each value once, and
restoring it in any order gives back the network.
-/
namespace FiniteDomain

/-- The network with more values assigned to each variable, on top of what is assigned. -/
def Network.stacking (net : Network) (tops : VariableId → List Int) : Network :=
  { net with vars := net.vars.mapKeyed fun x v => { v with assignments := tops x ++ v.assignments } }

def PassM.Reaches {σ α : Type} (m : PassM σ α) (p q : Pass σ) : Prop :=
  Ends m p (fun _ t => t = q) fun h t => (∃ why, h = .inconsistent why) ∧ t = q

/-- Removals on record and assignments lead from `p` to `q`, next to changes that leave network and
record alone. The assignments of `held` have not been taken back. -/
inductive Pass.Confined {σ : Type} (p : Pass σ) : (held : List VariableId) → (q : Pass σ) → Prop
  | refl : Confined p [] p
  | aside {held : List VariableId} {q t : Pass σ} :
    Confined p held q → t.network = q.network → t.removed = q.removed → Confined p held t
  | remove {held : List VariableId} {q t : Pass σ} {r : Removal} :
    Confined p held q → (PassM.remove r).Reaches q t → Confined p held t
  | assign {held : List VariableId} {q t : Pass σ} {x : VariableId} {a : Int} :
    Confined p held q → (PassM.assign x a).Reaches q t → Confined p (x :: held) t
  | unassign {held : List VariableId} {q t : Pass σ} {x : VariableId} :
    Confined p held q → x ∈ held → (PassM.unassign x).Reaches q t → Confined p (held.erase x) t

/-- Wherever the pass ends without a breach, it has kept to removals on record and has taken back
its assignments. -/
def PassM.Disciplined {σ α : Type} (m : PassM σ α) : Prop :=
  ∀ p, Ends m p (fun _ q => p.Confined [] q) fun h q =>
    (∃ why, h = .inconsistent why) → p.Confined [] q

/-- The record accounts for every change of the call. -/
structure Call.Exact {σ : Type} (r : Call σ) (net : Network) (outcome : Outcome) : Prop where
  nodup : outcome.removed.Nodup
  union : ∀ x a, net.Has x a ↔ r.network.Has x a ∨ (⟨x, a⟩ : Removal) ∈ outcome.removed
  disjoint : ∀ x a, r.network.Has x a → (⟨x, a⟩ : Removal) ∉ outcome.removed
  assignments_eq : ∀ x, (r.network.vars.get? x).map Variable.assignments =
    (net.vars.get? x).map Variable.assignments
  restored : ∀ order, order.Perm outcome.removed → r.network.restoreAll order = .ok net

variable {σ α β : Type} {p q t : Pass σ} {net : Network} {held : List VariableId}
  {tops : VariableId → List Int} {x : VariableId} {a : Int} {r : Removal} {rs : List Removal}

namespace Network

theorem get?_stacking (net : Network) (tops : VariableId → List Int) (x : VariableId) :
    (net.stacking tops).vars.get? x =
      (net.vars.get? x).map fun v => { v with assignments := tops x ++ v.assignments } :=
  Store.get?_mapKeyed _ _ _

theorem stacking_nil (net : Network) : (net.stacking fun _ => []) = net := by
  refine ext_vars rfl rfl fun x => ?_
  rw [get?_stacking]
  cases net.vars.get? x <;> rfl

theorem has_stacking : (net.stacking tops).Has x a ↔ net.Has x a := by
  simp only [Has, get?_stacking, Option.map_eq_some_iff]
  constructor
  · intro h
    obtain ⟨_, ⟨v, hv, rfl⟩, ha⟩ := h
    exact ⟨v, hv, ha⟩
  · intro h
    obtain ⟨v, hv, ha⟩ := h
    exact ⟨_, ⟨v, hv, rfl⟩, ha⟩

theorem WellFormed.stacking (h : net.WellFormed) (tops : VariableId → List Int) :
    (net.stacking tops).WellFormed := by
  apply h.of_vars (Store.size_mapKeyed _ _)
  intro x w hw
  obtain ⟨v, hv, rfl⟩ := Option.map_eq_some_iff.mp ((get?_stacking net tops x).symm.trans hw)
  exact ⟨v, hv, rfl, (h.domains hv).nodup, (h.domains hv).size_eq⟩

theorem without_stacking (net : Network) (tops : VariableId → List Int) (rs : List Removal) :
    (net.stacking tops).without rs = (net.without rs).stacking tops := by
  refine ext_vars rfl rfl fun x => ?_
  rw [get?_without, get?_stacking, get?_stacking, get?_without]
  cases net.vars.get? x <;> rfl

private theorem modify_stacking (ts : List Int) {v : Variable} (hv : net.vars.get? x = some v) :
    { net.stacking tops with
      vars := (net.stacking tops).vars.modify x fun _ => { v with assignments := ts ++ v.assignments } } =
      net.stacking (Function.update tops x ts) := by
  refine ext_vars rfl rfl fun y => ?_
  rw [Store.get?_modify, get?_stacking, get?_stacking]
  by_cases hy : y = x
  · subst hy
    simp [hv]
  · simp [hy]

theorem stacking_of_assign {net' : Network} (h : (net.stacking tops).assign x a = .ok net') :
    net' = net.stacking (Function.update tops x (a :: tops x)) := by
  obtain ⟨u, w, hu, hw, rfl⟩ := alter_eq_ok h
  rw [get?_stacking] at hu
  obtain ⟨v, hv, rfl⟩ := Option.map_eq_some_iff.mp hu
  rw [Variable.assign] at hw
  split at hw
  · cases hw
    exact modify_stacking (a :: tops x) hv
  · cases hw

theorem stacking_of_unassign {net' : Network} {ts : List Int} (htops : tops x = a :: ts)
    (h : (net.stacking tops).unassign x = .ok net') :
    net' = net.stacking (Function.update tops x ts) := by
  obtain ⟨u, w, hu, hw, rfl⟩ := alter_eq_ok h
  rw [get?_stacking, htops] at hu
  obtain ⟨v, hv, rfl⟩ := Option.map_eq_some_iff.mp hu
  cases hw
  exact modify_stacking ts hv

end Network

namespace PassM

theorem reaches_remove (hwf : p.network.WellFormed) (h : (remove r).Reaches p q) :
    (q.network = p.network ∧ q.removed = p.removed) ∨
      (p.network.Has r.var r.value ∧ q.network = p.network.without [r] ∧
        q.removed = p.removed.push r) := by
  by_cases hr : p.network.Has r.var r.value
  · right
    have hremove : Ends (remove r) p
        (fun _ t => t.network = p.network.without [r] ∧ t.removed = p.removed.push r)
        (fun _ t => t.network = p.network.without [r] ∧ t.removed = p.removed.push r) :=
      ends_remove hwf hr (fun _ _ _ => ⟨rfl, rfl⟩) fun _ _ _ => ⟨rfl, rfl⟩
    unfold Reaches Ends at h
    unfold Ends at hremove
    split at h
    · next hrun =>
      rw [hrun] at hremove
      exact ⟨hr, h ▸ hremove⟩
    · next hrun =>
      rw [hrun] at hremove
      exact ⟨hr, h.2 ▸ hremove⟩
  · left
    cases hv : p.network.vars.get? r.var with
    | none =>
      have hbreach : p.network.variableAt r.var = .error (p.network.vars.missing r.var) := by
        rw [Network.variableAt, Store.fetch, hv]
      rw [Reaches, remove, ends_bind, variableAt, ends_bind, ends_network, hbreach] at h
      obtain ⟨⟨why, hwhy⟩, -⟩ := h
      cases hwhy
    | some v =>
      have habsent : ¬v.contains r.value = true := fun ha => hr ⟨v, hv, ha⟩
      rw [Reaches, remove, ends_bind, ends_variableAt hv, if_neg habsent, ends_pure] at h
      rw [h]
      exact ⟨rfl, rfl⟩

private theorem reaches_of_setNetwork {m : Except Breach Network}
    (h : Reaches (do setNetwork (← demand m)) p q) :
    ∃ net, m = .ok net ∧ q = { p with network := net } := by
  cases m with
  | ok net =>
    rw [Reaches, ends_bind, ends_demand rfl, ends_setNetwork] at h
    exact ⟨net, rfl, h.symm⟩
  | error b =>
    obtain ⟨⟨why, hwhy⟩, -⟩ := h
    cases hwhy

theorem reaches_assign (h : (assign x a).Reaches p q) :
    ∃ net, p.network.assign x a = .ok net ∧ q = { p with network := net } := by
  rw [Reaches, assign, ends_bind, ends_network] at h
  exact reaches_of_setNetwork h

theorem reaches_unassign (h : (unassign x).Reaches p q) :
    ∃ net, p.network.unassign x = .ok net ∧ q = { p with network := net } := by
  rw [Reaches, unassign, ends_bind, ends_network] at h
  exact reaches_of_setNetwork h

end PassM

/-- At any time the network is the one at the start without the removals on record, with a stack of
assignments that are still to be taken back. -/
theorem Pass.Confined.exists_stacking (h : p.Confined held q) (hwf : p.network.WellFormed)
    (hstart : p.removed = #[]) :
    ∃ tops, (∀ x, (tops x).length = held.count x) ∧
      q.network = (p.network.without q.removed.toList).stacking tops ∧
      p.network.Records q.removed.toList := by
  induction h with
  | refl =>
    refine ⟨fun _ => [], by simp, ?_, hstart ▸ .nil _⟩
    rw [Network.stacking_nil, hstart]
    exact hwf.without_nil.symm
  | aside _ hnet hremoved ih =>
    rw [hnet, hremoved]
    exact ih
  | @remove held q t r _ hstep ih =>
    obtain ⟨tops, hheld, hnet, hrecords⟩ := ih
    have hwf' : q.network.WellFormed := hnet ▸ (hwf.without _).stacking tops
    rcases PassM.reaches_remove hwf' hstep with ⟨hnet', hremoved⟩ | ⟨hr, hnet', hremoved⟩
    · rw [hnet', hremoved]
      exact ⟨tops, hheld, hnet, hrecords⟩
    · have hcurrent : (p.network.without q.removed.toList).Has r.var r.value := by
        rwa [hnet, Network.has_stacking] at hr
      have hone : (p.network.without q.removed.toList).Records [r] :=
        ⟨List.nodup_singleton r, fun s hs => List.mem_singleton.mp hs ▸ hcurrent⟩
      -- assignments do not show in current domains, so the removal can be made below the stack
      refine ⟨tops, hheld, ?_, ?_⟩
      · rw [hnet', hnet, hremoved, Network.without_stacking, Network.without_without,
          Array.toList_push]
      · rw [hremoved, Array.toList_push]
        exact hrecords.append hone
  | @assign held q t x a _ hstep ih =>
    obtain ⟨tops, hheld, hnet, hrecords⟩ := ih
    obtain ⟨net, hassign, rfl⟩ := PassM.reaches_assign hstep
    rw [hnet] at hassign
    refine ⟨Function.update tops x (a :: tops x), fun y => ?_,
      Network.stacking_of_assign hassign, hrecords⟩
    by_cases hy : y = x
    · subst hy
      simp [hheld]
    · simp [hy, hheld, Ne.symm hy]
  | @unassign held q t x _ hmem hstep ih =>
    obtain ⟨tops, hheld, hnet, hrecords⟩ := ih
    obtain ⟨net, hunassign, rfl⟩ := PassM.reaches_unassign hstep
    rw [hnet] at hunassign
    have hpos : 0 < (tops x).length := by
      rw [hheld]
      exact List.count_pos_iff.mpr hmem
    obtain ⟨a, ts, htops⟩ := List.exists_cons_of_length_pos hpos
    have hlength : ts.length + 1 = held.count x := by rw [← hheld, htops, List.length_cons]
    refine ⟨Function.update tops x ts, fun y => ?_,
      Network.stacking_of_unassign htops hunassign, hrecords⟩
    by_cases hy : y = x
    · subst hy
      simp only [Function.update_self, List.count_erase_self]
      omega
    · simp [hy, hheld, List.count_erase_of_ne hy]

theorem Call.exact_of_records {c : Call σ} {outcome : Outcome} (hwf : net.WellFormed)
    (hnet : c.network = net.without outcome.removed) (hrecords : net.Records outcome.removed) :
    c.Exact net outcome where
  nodup := hrecords.nodup
  union x a := by
    rw [hnet, Network.has_without]
    have hcurrent := hrecords.current ⟨x, a⟩
    tauto
  disjoint x a ha := by
    rw [hnet] at ha
    exact (Network.has_without.mp ha).2
  assignments_eq x := by
    rw [hnet, Network.get?_without]
    cases net.vars.get? x <;> rfl
  restored order hperm := by
    rw [hnet]
    exact Network.restoreAll_without hwf hrecords hperm

/-- The record of a disciplined pass is exact, however the pass ends short of a breach. -/
theorem PassM.Disciplined.exact {pass : PassM σ Unit} (h : pass.Disciplined) (hwf : net.WellFormed)
    {name : String} {trigger : Option VariableId} {j : Journal} {own : σ} {outcome : Outcome}
    (hanswer : (pass.call name trigger net j own).answer = .ok outcome) :
    (pass.call name trigger net j own).Exact net outcome := by
  have hends := h ⟨net, #[], j, own⟩
  unfold Ends at hends
  have hconfined : ∃ q : Pass σ, (⟨net, #[], j, own⟩ : Pass σ).Confined [] q ∧
      (pass.call name trigger net j own).network = q.network ∧
      outcome.removed = q.removed.toList := by
    unfold PassM.call at hanswer ⊢
    cases hrun : pass.run ⟨net, #[], j, own⟩ with
    | ok u q =>
      rw [hrun] at hends hanswer
      cases hanswer
      exact ⟨q, hends, rfl, rfl⟩
    | error halt q =>
      rw [hrun] at hends hanswer
      cases halt with
      | inconsistent why =>
        cases hanswer
        exact ⟨q, hends ⟨why, rfl⟩, rfl, rfl⟩
      | breach b => cases hanswer
  obtain ⟨q, hq, hnet, hremoved⟩ := hconfined
  obtain ⟨tops, hnone, hleft, hrecords⟩ := hq.exists_stacking hwf rfl
  have htops : tops = fun _ => [] := by
    funext x
    exact List.length_eq_zero_iff.mp (hnone x)
  rw [htops, Network.stacking_nil] at hleft
  rw [← hremoved] at hrecords hleft
  exact Call.exact_of_records hwf (hnet.trans hleft) hrecords

theorem Pass.Confined.trans (h : p.Confined [] q) (h' : q.Confined held t) : p.Confined held t := by
  induction h' with
  | refl => exact h
  | aside _ hnet hremoved ih => exact ih.aside hnet hremoved
  | remove _ hstep ih => exact ih.remove hstep
  | assign _ hstep ih => exact ih.assign hstep
  | unassign _ hmem hstep ih => exact ih.unassign hmem hstep

namespace PassM
variable {m : PassM σ α} {f : α → PassM σ β}

private theorem Disciplined.from (h : m.Disciplined) (hq : p.Confined [] q) :
    Ends m q (fun _ t => p.Confined [] t) fun e t => (∃ why, e = .inconsistent why) → p.Confined [] t :=
  (h q).mono (fun _ _ ht => hq.trans ht) fun _ _ ht hwhy => hq.trans (ht hwhy)

theorem disciplined_pure (a : α) : (pure a : PassM σ α).Disciplined := fun _ => .refl

theorem Disciplined.bind (hm : m.Disciplined) (hf : ∀ a, (f a).Disciplined) :
    (m >>= f).Disciplined :=
  fun p => Ends.bind (hm p) fun a _ hq => (hf a).from hq

theorem Disciplined.forM {g : α → PassM σ PUnit} {as : List α} (h : ∀ a ∈ as, (g a).Disciplined) :
    (as.forM g).Disciplined := by
  intro p
  refine ends_forM (fun _ q => p.Confined [] q) .refl fun done a rest q has hq => ?_
  exact (h a (by simp [has])).from hq

theorem Disciplined.tryCatch {handle : Halt → PassM σ α} (hm : m.Disciplined)
    (hhandle : ∀ why, (handle (.inconsistent why)).Disciplined)
    (hbreach : ∀ b, handle (.breach b) = throw (.breach b)) : (tryCatch m handle).Disciplined := by
  intro p
  refine ends_tryCatch.mpr ((hm p).mono (fun _ _ hq => hq) fun halt q hq => ?_)
  cases halt with
  | inconsistent why => exact (hhandle why).from (hq ⟨why, rfl⟩)
  | breach b =>
    rw [hbreach]
    intro hwhy
    obtain ⟨why, hwhy⟩ := hwhy
    cases hwhy

theorem disciplined_get : (get : PassM σ (Pass σ)).Disciplined := fun _ => .refl

theorem disciplined_throw (halt : Halt) : (throw halt : PassM σ α).Disciplined := fun _ _ => .refl

theorem disciplined_demand (e : Except Breach α) : (demand e : PassM σ α).Disciplined := by
  cases e with
  | ok a => exact disciplined_pure a
  | error b => exact disciplined_throw _

theorem disciplined_modify {f : Pass σ → Pass σ}
    (h : ∀ p, (f p).network = p.network ∧ (f p).removed = p.removed) :
    (modify f : PassM σ PUnit).Disciplined :=
  fun p => .aside .refl (h p).1 (h p).2

theorem disciplined_modifyOwn (f : σ → σ) : (modifyOwn f).Disciplined :=
  disciplined_modify fun _ => ⟨rfl, rfl⟩

theorem disciplined_note (e : Event) : (note e : PassM σ Unit).Disciplined :=
  disciplined_modify fun _ => ⟨rfl, rfl⟩

theorem disciplined_vars : (vars : PassM σ _).Disciplined :=
  disciplined_get.bind fun _ => disciplined_pure _

theorem disciplined_variableAt (x : VariableId) : (variableAt x : PassM σ Variable).Disciplined :=
  (disciplined_get.bind fun _ => disciplined_pure _).bind fun _ => disciplined_demand _

theorem disciplined_domainValues (x : VariableId) :
    (domainValues x : PassM σ (List Int)).Disciplined :=
  (disciplined_variableAt x).bind fun _ => disciplined_pure _

theorem disciplined_constraintAt (c : ConstraintId) :
    (constraintAt c : PassM σ Constraint).Disciplined :=
  (disciplined_get.bind fun _ => disciplined_pure _).bind fun _ => disciplined_demand _

theorem disciplined_constraintsContaining (x : VariableId) :
    (constraintsContaining x : PassM σ (List ConstraintId)).Disciplined :=
  (disciplined_get.bind fun _ => disciplined_pure _).bind fun _ => disciplined_demand _

theorem disciplined_constraintIds : (constraintIds : PassM σ (List ConstraintId)).Disciplined :=
  (disciplined_get.bind fun _ => disciplined_pure _).bind fun _ => disciplined_pure _

private theorem ends_reaches (m : PassM σ α) (p : Pass σ) :
    Ends m p (fun _ q => m.Reaches p q) fun h q => (∃ why, h = .inconsistent why) → m.Reaches p q := by
  unfold Reaches Ends
  cases m.run p with
  | ok a q => exact rfl
  | error halt q => exact fun hwhy => ⟨hwhy, rfl⟩

theorem disciplined_remove (r : Removal) : (remove r : PassM σ Unit).Disciplined := by
  intro p
  refine (ends_reaches (remove r) p).mono (fun _ _ hq => ?_) fun _ _ hq hwhy => ?_
  · exact .remove .refl hq
  · exact .remove .refl (hq hwhy)

private theorem ends_setNetwork_demand (m : Except Breach Network) (p : Pass σ) :
    Ends (do setNetwork (← demand m)) p
      (fun _ q => Reaches (do setNetwork (← demand m)) p q) fun h _ => ∃ b, h = .breach b := by
  cases m with
  | ok net => exact rfl
  | error b => exact ⟨b, rfl⟩

/-- A probe that only reads is disciplined: it takes its assignment back. -/
theorem disciplined_probe (x : VariableId) (a : Int)
    (read : Store VariableId Variable → Except Breach α) (judge : α → β) :
    (do
      assign x a
      let found ← demand (read (← vars))
      unassign x
      return judge found : PassM σ β).Disciplined := by
  intro p
  refine Ends.bind (Q := fun _ q => (assign x a).Reaches p q)
    ((ends_setNetwork_demand _ p).mono (fun _ _ hq => hq) ?_) ?_
  · rintro _ _ ⟨b, rfl⟩ ⟨why, hwhy⟩
    cases hwhy
  · intro _ q hq
    rw [ends_bind, ends_vars]
    cases hread : read q.network.vars with
    | error b =>
      rintro ⟨why, hwhy⟩
      cases hwhy
    | ok found =>
      have hheld : p.Confined [x] q := .assign .refl hq
      rw [ends_bind, ends_demand rfl]
      refine Ends.bind (Q := fun _ t => (unassign x).Reaches q t)
        ((ends_setNetwork_demand _ q).mono (fun _ _ ht => ht) ?_) ?_
      · rintro _ _ ⟨b, rfl⟩ ⟨why, hwhy⟩
        cases hwhy
      · intro _ t ht
        have hback := hheld.unassign (List.mem_singleton.mpr rfl) ht
        rw [List.erase_cons_head] at hback
        exact hback

end PassM

end FiniteDomain
