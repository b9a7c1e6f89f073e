import FiniteDomain.Proofs.Run
/-!
# First faults

A reader that goes through a list and gives up at the first item that it does not accept ends in
the fault of that item.
-/
namespace FiniteDomain
variable {ε α β : Type} {fault : Nat → α → ε → Prop} {a : α} {as : List α} {e : ε}

/-- An item of the list has this fault, and none before it has any. -/
def FirstFault (fault : Nat → α → ε → Prop) (as : List α) (e : ε) : Prop :=
  ∃ i a, as[i]? = some a ∧ fault i a e ∧ ∀ j < i, ∀ b, as[j]? = some b → ∀ e', ¬fault j b e'

theorem not_firstFault_nil : ¬FirstFault fault [] e := fun ⟨_, _, ha, _⟩ => nomatch ha

theorem firstFault_cons :
    FirstFault fault (a :: as) e ↔
      fault 0 a e ∨ (∀ e', ¬fault 0 a e') ∧ FirstFault (fun i => fault (i + 1)) as e := by
  constructor
  · rintro ⟨i, b, hb, hfault, hbefore⟩
    cases i with
    | zero =>
      cases hb
      exact .inl hfault
    | succ i =>
      refine .inr ⟨hbefore 0 (Nat.succ_pos i) a rfl, i, b, hb, hfault, fun j hj => ?_⟩
      exact hbefore (j + 1) (Nat.succ_lt_succ hj)
  · rintro (hfault | ⟨hhead, i, b, hb, hfault, hbefore⟩)
    · exact ⟨0, a, rfl, hfault, fun j hj => absurd hj (Nat.not_lt_zero j)⟩
    · refine ⟨i + 1, b, hb, hfault, fun j hj c hc => ?_⟩
      cases j with
      | zero =>
        cases hc
        exact hhead
      | succ j => exact hbefore j (Nat.lt_of_succ_lt_succ hj) c hc

theorem forall_not_firstFault :
    (∀ e, ¬FirstFault fault as e) ↔ ∀ i a, as[i]? = some a → ∀ e, ¬fault i a e := by
  constructor
  · intro h i
    induction i using Nat.strongRecOn with
    | ind i ih => exact fun a ha e hfault => h e ⟨i, a, ha, hfault, ih⟩
  · rintro h e ⟨i, a, ha, hfault, -⟩
    exact h i a ha e hfault

theorem exists_eq_ok_iff {m : Except ε α} : (∃ a, m = .ok a) ↔ ∀ e, m ≠ .error e := by
  cases m <;> simp

theorem bind_eq_error_iff {m : Except ε α} {f : α → Except ε β} {F : ε → Prop} {G : Prop}
    (hm : ∀ e', m = .error e' ↔ F e') (hf : ∀ a, m = .ok a → (f a = .error e ↔ G)) :
    m >>= f = .error e ↔ F e ∨ (∀ e', ¬F e') ∧ G := by
  cases m with
  | ok a =>
    have hnone : ∀ e', ¬F e' := fun e' he' => nomatch (hm e').mpr he'
    exact (hf a rfl).trans ((or_iff_right (hnone e)).trans (and_iff_right hnone)).symm
  | error e' =>
    have hfault : F e' := (hm e').mp rfl
    have hsecond : ¬((∀ e', ¬F e') ∧ G) := fun h => h.1 e' hfault
    have hbind : (.error e' >>= f) = .error e ↔ (.error e' : Except ε α) = .error e := by
      simp [bind, Except.bind]
    exact hbind.trans ((hm e).trans (or_iff_left hsecond).symm)

theorem bind_pure_eq_error_iff {m : Except ε α} {f : α → β} :
    (m >>= fun a => pure (f a)) = .error e ↔ m = .error e := by
  cases m <;> simp [bind, Except.bind, pure, Except.pure]

theorem mapM_eq_error_iff {f : α → Except ε β} {F : α → ε → Prop}
    (hf : ∀ a e, f a = .error e ↔ F a e) :
    as.mapM f = .error e ↔ FirstFault (fun _ => F) as e := by
  induction as with
  | nil => exact iff_of_false (fun h => nomatch h) not_firstFault_nil
  | cons a as ih =>
    rw [List.mapM_cons, firstFault_cons]
    refine bind_eq_error_iff (hf a) fun b _ => ?_
    exact bind_pure_eq_error_iff.trans ih

end FiniteDomain
