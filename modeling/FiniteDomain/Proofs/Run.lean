import FiniteDomain.Breach
import Mathlib.Data.List.Forall2
import Mathlib.Tactic.Common
/-!
# Runs

How computations that can end early are taken apart: what is known of a run in two steps, and what
a run makes true when it answers and when it ends early.
-/
namespace FiniteDomain
variable {ε σ α β : Type}

theorem bind_eq_ok {m : Except ε α} {f : α → Except ε β} {b : β} :
    m >>= f = .ok b ↔ ∃ a, m = .ok a ∧ f a = .ok b := by
  cases m <;> simp [bind, Except.bind]

theorem forM_eq_ok {f : α → Except ε Unit} {as : List α} :
    as.forM f = .ok () ↔ ∀ a ∈ as, f a = .ok () := by
  rw [List.forM_eq_forM]
  induction as with
  | nil => simp [pure, Except.pure]
  | cons a as ih =>
    rw [List.forM_cons, bind_eq_ok, List.forall_mem_cons, ← ih]
    constructor
    · intro h
      obtain ⟨_, ha, has⟩ := h
      exact ⟨ha, has⟩
    · intro h
      obtain ⟨ha, has⟩ := h
      exact ⟨(), ha, has⟩

theorem mapM_eq_ok {f : α → Except ε β} {as : List α} {bs : List β} :
    as.mapM f = .ok bs ↔ List.Forall₂ (fun a b => f a = .ok b) as bs := by
  induction as generalizing bs with
  | nil => cases bs <;> simp [pure, Except.pure]
  | cons a as ih =>
    rw [List.mapM_cons, bind_eq_ok]
    constructor
    · intro h
      obtain ⟨b, hb, h⟩ := h
      obtain ⟨rest, hrest, h⟩ := bind_eq_ok.mp h
      cases h
      exact .cons hb (ih.mp hrest)
    · intro h
      cases h with
      | cons hb hrest => exact ⟨_, hb, bind_eq_ok.mpr ⟨_, ih.mpr hrest, rfl⟩⟩

theorem allM_eq_ok_true {p : α → Except ε Bool} {as : List α} :
    as.allM p = .ok true ↔ ∀ a ∈ as, p a = .ok true := by
  induction as with
  | nil => simp [pure, Except.pure]
  | cons a as ih =>
    rw [List.allM_cons, bind_eq_ok, List.forall_mem_cons, ← ih]
    constructor
    · intro h
      obtain ⟨found, ha, has⟩ := h
      cases found with
      | true => exact ⟨ha, has⟩
      | false => cases has
    · intro h
      exact ⟨true, h.1, h.2⟩

/-- Started at `s`, the computation answers with `Q` or ends early with `E`. -/
def Ends (m : EStateM ε σ α) (s : σ) (Q : α → σ → Prop) (E : ε → σ → Prop) : Prop :=
  match m.run s with
  | .ok a t => Q a t
  | .error e t => E e t

variable {m : EStateM ε σ α} {f : α → EStateM ε σ β} {s : σ} {Q Q' : α → σ → Prop}
  {R : β → σ → Prop} {E E' : ε → σ → Prop}

theorem Ends.mono (h : Ends m s Q E) (hQ : ∀ a t, Q a t → Q' a t) (hE : ∀ e t, E e t → E' e t) :
    Ends m s Q' E' := by
  unfold Ends at h ⊢
  split at h
  · exact hQ _ _ h
  · exact hE _ _ h

theorem Ends.and (h : Ends m s Q E) (h' : Ends m s Q' E') :
    Ends m s (fun a t => Q a t ∧ Q' a t) fun e t => E e t ∧ E' e t := by
  unfold Ends at h h' ⊢
  split <;> simp_all

theorem ends_run (m : EStateM ε σ α) (s : σ) :
    Ends m s (fun a t => m.run s = .ok a t) fun e t => m.run s = .error e t := by
  unfold Ends
  split
  · next hrun => exact hrun
  · next hrun => exact hrun

theorem Ends.run_eq {a : α} {t : σ} (h : Ends m s (fun b u => b = a ∧ u = t) fun _ _ => False) :
    m.run s = .ok a t := by
  unfold Ends at h
  split at h
  · next b u hrun =>
    obtain ⟨rfl, rfl⟩ := h
    exact hrun
  · exact h.elim

theorem ends_congr (h : ∀ a t, Q a t ↔ Q' a t) : Ends m s Q E ↔ Ends m s Q' E :=
  ⟨fun hm => hm.mono (fun a t => (h a t).mp) fun _ _ => id,
    fun hm => hm.mono (fun a t => (h a t).mpr) fun _ _ => id⟩

theorem ends_pure {a : α} : Ends (pure a : EStateM ε σ α) s Q E ↔ Q a s := Iff.rfl

theorem ends_get {Q : σ → σ → Prop} : Ends (get : EStateM ε σ σ) s Q E ↔ Q s s := Iff.rfl

theorem ends_modify {g : σ → σ} {Q : PUnit → σ → Prop} :
    Ends (modify g : EStateM ε σ PUnit) s Q E ↔ Q ⟨⟩ (g s) :=
  Iff.rfl

theorem ends_bind : Ends (m >>= f) s R E ↔ Ends m s (fun a t => Ends (f a) t R E) E := by
  simp only [Ends, EStateM.run_bind]
  cases m.run s <;> rfl

theorem Ends.bind (h : Ends m s Q E) (hf : ∀ a t, Q a t → Ends (f a) t R E) :
    Ends (m >>= f) s R E :=
  ends_bind.mpr (h.mono hf fun _ _ he => he)

theorem ends_tryCatch {handle : ε → EStateM ε σ α} :
    Ends (tryCatch m handle) s Q E ↔ Ends m s Q fun e t => Ends (handle e) t Q E := by
  have hrun : (tryCatch m handle).run s =
      match m.run s with
      | .ok a t => .ok a t
      | .error e t => (handle e).run t := by
    change EStateM.tryCatch m handle s = _
    rw [EStateM.tryCatch, EStateM.run]
    cases m s <;> rfl
  simp only [Ends, hrun]
  cases m.run s <;> rfl

/-- A loop keeps what holds of the items done so far. -/
theorem ends_forM {g : α → EStateM ε σ PUnit} {as : List α} (I : List α → σ → Prop)
    (hstart : I [] s)
    (hstep : ∀ done a rest t, as = done ++ a :: rest → I done t →
      Ends (g a) t (fun _ u => I (done ++ [a]) u) E) :
    Ends (as.forM g) s (fun _ t => I as t) E := by
  have hloop : ∀ rest done t, as = done ++ rest → I done t →
      Ends (rest.forM g) t (fun _ u => I as u) E := by
    intro rest
    induction rest with
    | nil =>
      intro done t has ht
      rw [List.append_nil] at has
      exact has ▸ ht
    | cons a rest ih =>
      intro done t has ht
      rw [List.forM_eq_forM, List.forM_cons]
      refine (hstep done a rest t has ht).bind fun _ u hu => ?_
      exact ih (done ++ [a]) u (by rw [has, List.append_assoc]; rfl) hu
  exact hloop as [] s rfl hstart

end FiniteDomain
