import FiniteDomain.Proofs.Propagation.Pass
/-!
# What a call answers

A call answers with a record of its removals: the network it leaves is the one it was given
without them. Only an emptied domain can have lost all its values.
-/
namespace FiniteDomain

variable {σ : Type} {net : Network} {j : Journal} {x : VariableId} {p : Pass σ}

/-- The domain of `x` has gone with the last removal, and no other domain has. -/
structure Network.Emptied (net : Network) (removed : List Removal) (x : VariableId) : Prop where
  last : ∃ rs a, removed = rs ++ [⟨x, a⟩]
  empty : ∀ a, ¬(net.without removed).Has x a
  others : ∀ {y a}, y ≠ x → net.Has y a → ∃ b, (net.without removed).Has y b

/-- The call of `net` has an answer that accounts for the network it leaves. -/
structure Call.Answers (r : Call σ) (net : Network) (j : Journal) (outcome : Outcome) : Prop where
  answer_eq : r.answer = .ok outcome
  network_eq : r.network = net.without outcome.removed
  records : net.Records outcome.removed
  solutions_eq : r.journal.solutions = j.solutions
  outlived : outcome.status = .consistent → net.OutlivedBy r.network
  emptied : ∀ {x}, outcome.status = .inconsistent (.emptyDomain x) →
    net.Emptied outcome.removed x

theorem PassM.call_answers {pass : PassM σ Unit} {own : σ} {why : Removal → Prop}
    {Q : Pass σ → Prop} {E : Inconsistency → Pass σ → Prop} (name : String)
    (trigger : Option VariableId)
    (hends : Ends pass ⟨net, #[], j, own⟩
      (fun _ p => p.Tracks net j.solutions why ∧ net.OutlivedBy p.network ∧ Q p)
      (fun h p => ∃ i, h = .inconsistent i ∧ p.Tracks net j.solutions why ∧
        (∀ x, i = .emptyDomain x → p.Wipes net j.solutions why x) ∧ E i p)) :
    ∃ outcome p, (pass.call name trigger net j own).Answers net j outcome ∧
      (∀ r ∈ outcome.removed, why r) ∧ p.Tracks net j.solutions why ∧
      (pass.call name trigger net j own).network = p.network ∧
      (pass.call name trigger net j own).own = p.own ∧ outcome.removed = p.removed.toList ∧
      (outcome.status = .consistent → Q p) ∧ ∀ i, outcome.status = .inconsistent i → E i p := by
  unfold Ends at hends
  unfold PassM.call
  split at hends
  · next q hrun =>
    obtain ⟨hq, halive, hQ⟩ := hends
    rw [hrun]
    refine ⟨⟨.consistent, q.removed.toList⟩, q, ⟨rfl, hq.network_eq, hq.records, ?_, fun _ => halive,
      fun he => (nomatch he)⟩, hq.justified, hq, rfl, rfl, rfl, fun _ => hQ,
      fun i he => (nomatch he)⟩
    exact (Journal.solutions_record _ _).trans hq.solutions_eq
  · next h q hrun =>
    obtain ⟨i, rfl, hq, hwipes, hE⟩ := hends
    rw [hrun]
    refine ⟨⟨.inconsistent i, q.removed.toList⟩, q, ⟨rfl, hq.network_eq, hq.records, ?_,
      fun he => (nomatch he), fun {x} he => ?_⟩, hq.justified, hq, rfl, rfl, rfl,
      fun he => (nomatch he), fun i' he => Status.inconsistent.inj he ▸ hE⟩
    · exact (Journal.solutions_record _ _).trans hq.solutions_eq
    · have h := hwipes x (Status.inconsistent.inj he)
      exact ⟨h.last, hq.network_eq ▸ h.empty, hq.network_eq ▸ h.others⟩

theorem PassM.call_status {pass : PassM σ Unit} {own : σ} {P : Status → σ → Prop} (name : String)
    (trigger : Option VariableId)
    (hends : Ends pass ⟨net, #[], j, own⟩ (fun _ q => P .consistent q.own)
      fun h q => ∃ why, h = .inconsistent why ∧ P (.inconsistent why) q.own) :
    ∃ outcome, (pass.call name trigger net j own).answer = .ok outcome ∧
      P outcome.status (pass.call name trigger net j own).own := by
  unfold Ends at hends
  unfold PassM.call
  split at hends
  · next q hrun =>
    rw [hrun]
    exact ⟨_, rfl, hends⟩
  · next h q hrun =>
    obtain ⟨why, rfl, hwhy⟩ := hends
    rw [hrun]
    exact ⟨_, rfl, hwhy⟩

end FiniteDomain
