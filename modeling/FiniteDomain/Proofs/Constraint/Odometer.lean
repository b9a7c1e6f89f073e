import FiniteDomain.Proofs.Constraint.Table
/-!
# The odometer of candidates

The combinations of candidates are enumerated by a row of wheels, one for each position. At every
step the last wheel is turned on, and a wheel that comes round turns on the one before it. So each
combination is shown once, in lexicographic order of positions.
-/
namespace FiniteDomain

/-- The candidates of one position, and which of them is shown. -/
structure Wheel where
  values : List Int
  index : Nat
  index_lt : index < values.length

namespace Wheel

def shown (w : Wheel) : Int := w.values.get ⟨w.index, w.index_lt⟩

def ahead (w : Wheel) : List Int := w.values.drop (w.index + 1)

def first (values : List Int) (h : values ≠ []) : Wheel := ⟨values, 0, List.length_pos_iff.mpr h⟩

def reset (w : Wheel) : Wheel :=
  first w.values (List.ne_nil_of_length_pos (Nat.zero_lt_of_lt w.index_lt))

/-- The wheel turned on by one candidate, unless it comes round. -/
def next? (w : Wheel) : Option Wheel :=
  if h : w.index + 1 < w.values.length then some ⟨w.values, w.index + 1, h⟩ else none

theorem shown_cons_ahead (w : Wheel) : w.shown :: w.ahead = w.values.drop w.index :=
  List.getElem_cons_drop ..

theorem ahead_of_next?_eq_none {w : Wheel} (h : w.next? = none) : w.ahead = [] := by
  unfold next? at h
  split at h
  · cases h
  · next hlast => exact List.drop_eq_nil_of_le (Nat.le_of_not_lt hlast)

theorem next?_eq_some {w w' : Wheel} (h : w.next? = some w') :
    w'.values = w.values ∧ w.ahead = w'.shown :: w'.ahead := by
  unfold next? at h
  split at h
  · next hlt =>
    cases h
    exact ⟨rfl, (shown_cons_ahead ⟨w.values, w.index + 1, hlt⟩).symm⟩
  · cases h

theorem shown_cons_ahead_first {values : List Int} (h : values ≠ []) :
    (first values h).shown :: (first values h).ahead = values :=
  shown_cons_ahead _

end Wheel

namespace Odometer

def start : (lists : List (List Int)) → (∀ values ∈ lists, values ≠ []) → List Wheel
  | [], _ => []
  | values :: rest, h =>
    .first values (h values (by simp)) :: start rest fun l hl => h l (List.mem_cons_of_mem _ hl)

def reading (ws : List Wheel) : List Int := ws.map Wheel.shown

/-- Turns the last wheel on, and for a wheel that comes round the one before it. The answer tells
whether all of them have come round. -/
def turn : List Wheel → List Wheel × Bool
  | [] => ([], true)
  | w :: ws =>
    match turn ws with
    | (ws, false) => (w :: ws, false)
    | (ws, true) =>
      match w.next? with
      | some w => (w :: ws, false)
      | none => (w.reset :: ws, true)

/-- The combination that is shown, and those that the wheels will show after it. -/
def upcoming : List Wheel → List (List Int)
  | [] => [[]]
  | w :: ws =>
    (upcoming ws).map (w.shown :: ·) ++
      w.ahead.flatMap fun a => (combinations (ws.map Wheel.values)).map (a :: ·)

variable {accepts : List Int → Bool} {lists : List (List Int)} {ws ws' : List Wheel}

theorem upcoming_cons {w : Wheel} {values : List Int} (hw : w.shown :: w.ahead = values)
    (hvalues : ws.map Wheel.values = lists) (hws : upcoming ws = combinations lists) :
    upcoming (w :: ws) = combinations (values :: lists) := by
  rw [upcoming, hws, hvalues, ← hw, combinations, List.flatMap_cons]

theorem values_start (h : ∀ values ∈ lists, values ≠ []) :
    (start lists h).map Wheel.values = lists := by
  induction lists with
  | nil => rfl
  | cons values rest ih =>
    rw [start, List.map_cons, ih]
    rfl

theorem upcoming_start (h : ∀ values ∈ lists, values ≠ []) :
    upcoming (start lists h) = combinations lists := by
  induction lists with
  | nil => rfl
  | cons values rest ih =>
    exact upcoming_cons (Wheel.shown_cons_ahead_first _) (values_start _) (ih _)

theorem turn_spec (ws : List Wheel) :
    (turn ws).1.map Wheel.values = ws.map Wheel.values ∧
      if (turn ws).2 then upcoming ws = [reading ws] ∧
        upcoming (turn ws).1 = combinations (ws.map Wheel.values)
      else upcoming ws = reading ws :: upcoming (turn ws).1 := by
  induction ws with
  | nil => exact ⟨rfl, rfl, rfl⟩
  | cons w ws ih =>
    rw [turn]
    cases hturn : turn ws with
    | mk ws' round =>
      rw [hturn] at ih
      obtain ⟨hvalues, ih⟩ := ih
      simp only at hvalues ih
      cases round with
      | false =>
        simp only [Bool.false_eq_true, if_false] at ih ⊢
        simp [upcoming, reading, ih, hvalues]
      | true =>
        simp only [if_true] at ih
        obtain ⟨hlast, hagain⟩ := ih
        cases hnext : w.next? with
        | some w' =>
          obtain ⟨hkept, hahead⟩ := Wheel.next?_eq_some hnext
          simp [upcoming, reading, hlast, hagain, hvalues, hkept, hahead]
        | none =>
          have hahead := Wheel.ahead_of_next?_eq_none hnext
          refine ⟨?_, ?_, ?_⟩
          · rw [List.map_cons, hvalues]
            rfl
          · simp [upcoming, reading, hlast, hahead]
          · exact upcoming_cons (Wheel.shown_cons_ahead_first _) hvalues hagain

theorem upcoming_of_turn (h : turn ws = (ws', false)) :
    upcoming ws = reading ws :: upcoming ws' := by
  have hspec := (turn_spec ws).2
  rwa [h] at hspec

theorem length_upcoming_lt (h : turn ws = (ws', false)) :
    (upcoming ws').length < (upcoming ws).length := by
  rw [upcoming_of_turn h]
  exact Nat.lt_succ_self _

theorem upcoming_of_turn_round (h : turn ws = (ws', true)) :
    upcoming ws = [reading ws] := by
  have hspec := (turn_spec ws).2
  rw [h] at hspec
  exact hspec.1

/-- The combinations that were tried, and whether the last of them was accepted. -/
structure Trial where
  tried : List (List Int)
  found : Bool

/-- Tries the combination that is shown and turns on, until one is accepted or all wheels have come
round. -/
def spin (accepts : List Int → Bool) (ws : List Wheel) : Trial :=
  if accepts (reading ws) then ⟨[reading ws], true⟩
  else match _hturn : turn ws with
    | (ws', false) =>
      let rest := spin accepts ws'
      ⟨reading ws :: rest.tried, rest.found⟩
    | (_, true) => ⟨[reading ws], false⟩
termination_by (upcoming ws).length
decreasing_by
  exact length_upcoming_lt (by assumption)

/-- Either the odometer goes through all combinations to come and none is accepted, or it stops at
the first that is. -/
theorem spin_spec (accepts : List Int → Bool) (ws : List Wheel) :
    if (spin accepts ws).found then
      ∃ before t after, upcoming ws = before ++ t :: after ∧ (spin accepts ws).tried = before ++ [t] ∧
        (∀ u ∈ before, accepts u = false) ∧ accepts t = true
    else (spin accepts ws).tried = upcoming ws ∧ ∀ u ∈ upcoming ws, accepts u = false := by
  fun_induction spin accepts ws with
  | case1 ws haccepts =>
    rw [if_pos rfl]
    cases hturn : turn ws with
    | mk ws' round =>
      cases round with
      | false => exact ⟨[], _, upcoming ws', upcoming_of_turn hturn, rfl, by simp, haccepts⟩
      | true => exact ⟨[], _, [], upcoming_of_turn_round hturn, rfl, by simp, haccepts⟩
  | case2 ws hrejects ws' hturn rest ih =>
    have hrejects : accepts (reading ws) = false := eq_false_of_ne_true hrejects
    rw [upcoming_of_turn hturn]
    cases hfound : rest.found with
    | true =>
      rw [hfound, if_pos rfl] at ih
      obtain ⟨before, t, after, hupcoming, htried, hbefore, ht⟩ := ih
      refine ⟨reading ws :: before, t, after, ?_, ?_, ?_, ht⟩
      · rw [hupcoming, List.cons_append]
      · exact congrArg (reading ws :: ·) htried
      · exact List.forall_mem_cons.mpr ⟨hrejects, hbefore⟩
    | false =>
      rw [hfound, if_neg Bool.false_ne_true] at ih
      obtain ⟨htried, hall⟩ := ih
      exact ⟨congrArg (reading ws :: ·) htried, List.forall_mem_cons.mpr ⟨hrejects, hall⟩⟩
  | case3 ws hrejects ws' hturn =>
    rw [upcoming_of_turn_round hturn]
    simpa using hrejects

end Odometer

end FiniteDomain
