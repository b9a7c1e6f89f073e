import FiniteDomain.Propagation.Pass
import FiniteDomain.Proofs.Network.Assignment
import FiniteDomain.Proofs.Network.Removal
import FiniteDomain.Proofs.Run
/-!
# What a pass does to a network

A pass only takes current values away, records each removal once, and ends at the first domain
that it empties. The network it leaves is the one it started from without the removals on record.
-/
namespace FiniteDomain

/-- No variable that has values in `net` has lost all of them in `net'`. -/
def Network.OutlivedBy (net net' : Network) : Prop :=
  ∀ {x a}, net.Has x a → ∃ b, net'.Has x b

/-- The constraints that a call with this trigger looks at, in order. -/
def Network.affected (net : Network) : Option VariableId → List ConstraintId
  | none => net.constraints.keys
  | some x => net.mentioning x

theorem Network.mem_affected {net : Network} {trigger : Option VariableId} {id : ConstraintId} :
    id ∈ net.affected trigger ↔
      ∃ c, net.constraints.get? id = some c ∧ ∀ x, trigger = some x → x ∈ c.scope := by
  cases trigger with
  | none => simp [affected, Store.mem_keys]
  | some x => simp [affected, mem_mentioning]

namespace Pass
variable {σ : Type}

/-- The pass has taken from `net` what is on its record, each removal for a reason, and reported
nothing. -/
structure Tracks (net : Network) (told : List Solution) (why : Removal → Prop) (p : Pass σ) :
    Prop where
  network_eq : p.network = net.without p.removed.toList
  records : net.Records p.removed.toList
  justified : ∀ r ∈ p.removed.toList, why r
  solutions_eq : p.journal.solutions = told

/-- The last removal of the pass has emptied the domain of `x`, and no other domain. -/
structure Wipes (net : Network) (told : List Solution) (why : Removal → Prop) (x : VariableId)
    (p : Pass σ) : Prop extends p.Tracks net told why where
  last : ∃ rs a, p.removed.toList = rs ++ [⟨x, a⟩]
  empty : ∀ a, ¬p.network.Has x a
  others : ∀ {y a}, y ≠ x → net.Has y a → ∃ b, p.network.Has y b

end Pass

namespace PassM
variable {σ α : Type} {p : Pass σ} {x : VariableId} {a : Int} {v : Variable} {r : Removal}
  {Q : PUnit → Pass σ → Prop} {E : Halt → Pass σ → Prop}

theorem ends_demand {b : α} {Q : α → Pass σ → Prop} {m : Except Breach α} (h : m = .ok b) :
    Ends (demand m) p Q E ↔ Q b p := by
  rw [h]
  rfl

theorem ends_network {Q : Network → Pass σ → Prop} : Ends network p Q E ↔ Q p.network p := Iff.rfl

theorem ends_vars {Q : Store VariableId Variable → Pass σ → Prop} :
    Ends vars p Q E ↔ Q p.network.vars p :=
  Iff.rfl

theorem ends_constraintIds {Q : List ConstraintId → Pass σ → Prop} :
    Ends constraintIds p Q E ↔ Q p.network.constraints.keys p :=
  Iff.rfl

theorem ends_note {e : Event} :
    Ends (note e) p Q E ↔ Q ⟨⟩ { p with journal := p.journal.record e } :=
  Iff.rfl

theorem ends_modifyOwn {f : σ → σ} :
    Ends (modifyOwn f) p Q E ↔ Q ⟨⟩ { p with own := f p.own } :=
  Iff.rfl

theorem ends_setNetwork {net : Network} :
    Ends (setNetwork net) p Q E ↔ Q ⟨⟩ { p with network := net } :=
  Iff.rfl

theorem ends_deadEnd {why : Inconsistency} : Ends (deadEnd why) p Q E ↔ E (.inconsistent why) p :=
  Iff.rfl

theorem ends_variableAt {Q : Variable → Pass σ → Prop} (h : p.network.vars.get? x = some v) :
    Ends (variableAt x) p Q E ↔ Q v p := by
  rw [variableAt, ends_bind, ends_network, Network.variableAt,
    ends_demand (Store.fetch_of_get? h)]

theorem ends_domainValues {Q : List Int → Pass σ → Prop} (h : p.network.vars.get? x = some v) :
    Ends (domainValues x) p Q E ↔ Q v.currentDomain p := by
  rw [domainValues, ends_bind, ends_variableAt h, ends_pure]

theorem ends_constraintAt {Q : Constraint → Pass σ → Prop} {id : ConstraintId} {c : Constraint}
    (h : p.network.constraints.get? id = some c) : Ends (constraintAt id) p Q E ↔ Q c p := by
  rw [constraintAt, ends_bind, ends_network, Network.constraintAt,
    ends_demand (Store.fetch_of_get? h)]

theorem ends_constraintsContaining {Q : List ConstraintId → Pass σ → Prop}
    {ids : List ConstraintId} (h : p.network.containing.get? x = some ids) :
    Ends (constraintsContaining x) p Q E ↔ Q ids p := by
  rw [constraintsContaining, ends_bind, ends_network, Network.constraintsContaining,
    ends_demand (Store.fetch_of_get? h)]

theorem ends_assign (h : p.network.Has x a) :
    Ends (assign x a) p Q E ↔ Q ⟨⟩ { p with network := p.network.assigning x a } := by
  rw [assign, ends_bind, ends_network, ends_bind, ends_demand (Network.assign_eq_ok h),
    ends_setNetwork]

theorem ends_unassign {net : Network} (hx : net.Knows x) (h : p.network = net.assigning x a) :
    Ends (unassign x) p Q E ↔ Q ⟨⟩ { p with network := net } := by
  have hback : p.network.unassign x = .ok net := by
    rw [h, Network.unassign_assigning hx]
  rw [unassign, ends_bind, ends_network, ends_bind, ends_demand hback, ends_setNetwork]

/-- Removing a current value leaves some other value, or ends the pass at an empty domain. -/
theorem ends_remove (hwf : p.network.WellFormed) (hr : p.network.Has r.var r.value)
    (hkept : ∀ j, j.solutions = p.journal.solutions →
      (∃ b, (p.network.without [r]).Has r.var b) →
      Q ⟨⟩ ⟨p.network.without [r], p.removed.push r, j, p.own⟩)
    (hlast : ∀ j, j.solutions = p.journal.solutions →
      (∀ b, ¬(p.network.without [r]).Has r.var b) →
      E (.inconsistent (.emptyDomain r.var)) ⟨p.network.without [r], p.removed.push r, j, p.own⟩) :
    Ends (remove r) p Q E := by
  obtain ⟨v, hv, ha⟩ := hr
  have hleft (b : Int) : (p.network.without [r]).Has r.var b ↔
      (v.without (· == r.value)).contains b = true := by
    rw [Network.has_without, Variable.contains_without]
    cases r
    simp [Network.Has, hv]
  rw [remove, ends_bind, ends_variableAt hv, if_pos ha, ends_bind, ends_network, ends_bind,
    ends_demand (Network.prune_eq_ok hwf ⟨v, hv, ha⟩), ends_bind, ends_setNetwork, ends_bind,
    ends_modify, ends_bind, ends_note]
  have hsize := Variable.size_without (hwf.domains hv) ha
  have hpos := Variable.size_pos (Variable.wellFormed_without (hwf.domains hv) (· == r.value))
  by_cases hone : v.size = 1
  · rw [if_pos hone, ends_bind, ends_note, ends_deadEnd]
    refine hlast _ (by simp) fun b hb => ?_
    have := hpos.mpr ⟨b, (hleft b).mp hb⟩
    omega
  · rw [if_neg hone, ends_pure]
    refine hkept _ (by simp) ?_
    obtain ⟨b, hb⟩ := hpos.mp (by omega)
    exact ⟨b, (hleft b).mpr hb⟩

/-- A loop over the current values of a variable, of which each turn takes at most its own. -/
theorem ends_forM_currentDomain {f : Int → PassM σ PUnit} (hwf : p.network.WellFormed)
    (hv : p.network.vars.get? x = some v) (I : List Int → Pass σ → Prop) (hstart : I [] p)
    (hstep : ∀ done a q, q.network.Has x a → I done q →
      Ends (f a) q (fun _ r => I (done ++ [a]) r ∧
        ∀ b, b ≠ a → q.network.Has x b → r.network.Has x b) E) :
    Ends (v.currentDomain.forM f) p
      (fun _ q => ∃ done, (∀ a, a ∈ done ↔ p.network.Has x a) ∧ I done q) E := by
  have hhas (a : Int) : a ∈ v.currentDomain ↔ p.network.Has x a := by
    simp [Network.Has, hv, Variable.mem_currentDomain]
  have hnodup := (hwf.domains hv).nodup_currentDomain
  refine (ends_forM (fun done q =>
    I done q ∧ ∀ a, a ∉ done → p.network.Has x a → q.network.Has x a) ?_ ?_).mono ?_ fun _ _ h => h
  · exact ⟨hstart, fun _ _ ha => ha⟩
  · intro done a rest q hsplit h
    obtain ⟨hq, hleft⟩ := h
    rw [hsplit] at hnodup
    have hfresh : a ∉ done := fun hm =>
      (List.nodup_append.mp hnodup).2.2 a hm a (List.mem_cons_self ..) rfl
    have ha : q.network.Has x a := hleft a hfresh ((hhas a).mp (hsplit ▸ by simp))
    refine (hstep done a q ha hq).mono ?_ fun _ _ h => h
    intro _ r h
    obtain ⟨hr, hothers⟩ := h
    refine ⟨hr, fun b hb hpb => ?_⟩
    simp only [List.mem_append, List.mem_singleton, not_or] at hb
    exact hothers b hb.2 (hleft b hb.1 hpb)
  · intro _ q h
    obtain ⟨hq, -⟩ := h
    exact ⟨v.currentDomain, hhas, hq⟩

end PassM

namespace Pass
variable {σ : Type} {p : Pass σ} {net : Network} {told : List Solution} {why : Removal → Prop}
  {r : Removal} {x : VariableId} {a : Int}

theorem tracks_start (hwf : net.WellFormed) (j : Journal) (own : σ) (why : Removal → Prop) :
    (⟨net, #[], j, own⟩ : Pass σ).Tracks net j.solutions why :=
  ⟨hwf.without_nil.symm, .nil net, by simp, rfl⟩

theorem Tracks.wellFormed (h : p.Tracks net told why) (hwf : net.WellFormed) :
    p.network.WellFormed :=
  h.network_eq ▸ hwf.without _

theorem Tracks.has_iff (h : p.Tracks net told why) :
    p.network.Has x a ↔ net.Has x a ∧ (⟨x, a⟩ : Removal) ∉ p.removed.toList := by
  rw [h.network_eq, Network.has_without]

theorem Tracks.knows_iff (h : p.Tracks net told why) : p.network.Knows x ↔ net.Knows x := by
  rw [h.network_eq, Network.knows_without]

theorem Tracks.assigned_eq (h : p.Tracks net told why) (x : VariableId) :
    p.network.assigned x = net.assigned x := by
  rw [h.network_eq, Network.assigned_without]

theorem Tracks.constraints_eq (h : p.Tracks net told why) :
    p.network.constraints = net.constraints := by
  rw [h.network_eq, Network.constraints_without]

theorem Tracks.containing_eq (h : p.Tracks net told why) :
    p.network.containing = net.containing := by
  rw [h.network_eq, Network.containing_without]

theorem Tracks.mentioning_eq (h : p.Tracks net told why) (x : VariableId) :
    p.network.mentioning x = net.mentioning x := by
  rw [Network.mentioning, Network.mentioning, h.constraints_eq]

theorem Tracks.of_eq {q : Pass σ} (h : p.Tracks net told why) (hnet : q.network = p.network)
    (hrem : q.removed = p.removed) (hjournal : q.journal.solutions = p.journal.solutions) :
    q.Tracks net told why :=
  ⟨by rw [hnet, hrem, h.network_eq], hrem ▸ h.records, hrem ▸ h.justified,
    hjournal.trans h.solutions_eq⟩

theorem Tracks.modifyOwn (h : p.Tracks net told why) (f : σ → σ) {E : Halt → Pass σ → Prop} :
    Ends (PassM.modifyOwn f) p
      (fun _ q => q.Tracks net told why ∧ q.network = p.network ∧ q.removed = p.removed ∧
        q.own = f p.own) E :=
  ⟨h.of_eq rfl rfl rfl, rfl, rfl, rfl⟩

theorem Tracks.push (h : p.Tracks net told why) (hr : p.network.Has r.var r.value) (hwhy : why r)
    {j : Journal} (hj : j.solutions = p.journal.solutions) {own : σ} :
    (⟨p.network.without [r], p.removed.push r, j, own⟩ : Pass σ).Tracks net told why where
  network_eq := by
    rw [Array.toList_push, ← Network.without_without, ← h.network_eq]
  records := by
    rw [Array.toList_push]
    refine h.records.append ⟨by simp, fun q hq => ?_⟩
    rw [List.mem_singleton.mp hq, ← h.network_eq]
    exact hr
  justified q hq := by
    rw [Array.toList_push] at hq
    rcases List.mem_append.mp hq with hq | hq
    · exact h.justified q hq
    · exact List.mem_singleton.mp hq ▸ hwhy
  solutions_eq := hj.trans h.solutions_eq

/-- A removal keeps track, and ends the pass only where it wipes out the domain. -/
theorem Tracks.remove (h : p.Tracks net told why) (hwf : net.WellFormed)
    (halive : net.OutlivedBy p.network) (hr : p.network.Has r.var r.value) (hwhy : why r) :
    Ends (PassM.remove r) p
      (fun _ q => q.Tracks net told why ∧ net.OutlivedBy q.network ∧
        q.network = p.network.without [r] ∧ q.removed = p.removed.push r ∧ q.own = p.own)
      (fun halt q => halt = .inconsistent (.emptyDomain r.var) ∧ q.Wipes net told why r.var ∧
        q.removed = p.removed.push r ∧ q.own = p.own) := by
  have hothers : ∀ {y a}, y ≠ r.var → net.Has y a → ∃ b, (p.network.without [r]).Has y b := by
    intro y a hy ha
    obtain ⟨b, hb⟩ := halive ha
    refine ⟨b, Network.has_without.mpr ⟨hb, fun hmem => hy ?_⟩⟩
    exact congrArg Removal.var (List.mem_singleton.mp hmem)
  refine PassM.ends_remove (h.wellFormed hwf) hr (fun j hj hsome => ?_) fun j hj hnone => ?_
  · refine ⟨h.push hr hwhy hj, ?_, rfl, rfl, rfl⟩
    intro y a ha
    by_cases hy : y = r.var
    · exact hy ▸ hsome
    · exact hothers hy ha
  · exact ⟨rfl, ⟨h.push hr hwhy hj, ⟨p.removed.toList, r.value, by simp⟩, hnone, hothers⟩, rfl, rfl⟩

end Pass

end FiniteDomain
