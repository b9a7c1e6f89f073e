import FiniteDomain.Text.Decimal
import Mathlib.Algebra.Ring.Int.Defs
import Mathlib.Tactic.Common
/-!
# Numerals

Which texts are read as numbers, and as which: one or more digits after an optional sign. A number
that is written is read back.
-/
namespace FiniteDomain.Text

/-- One or more digits with the number they stand for. -/
structure Digits (cs : List Char) (n : Nat) : Prop where
  ne_nil : cs ≠ []
  isDigit : ∀ c ∈ cs, c.isDigit = true
  value_eq : n = Nat.ofDigitChars 10 cs 0

/-- Digits after an optional sign, with the number they stand for. -/
inductive Numeral : List Char → Int → Prop
  | unsigned {cs : List Char} {n : Nat} : Digits cs n → Numeral cs n
  | plus {cs : List Char} {n : Nat} : Digits cs n → Numeral ('+' :: cs) n
  | minus {cs : List Char} {n : Nat} : Digits cs n → Numeral ('-' :: cs) (-(n : Int))

structure Numeral64 (cs : List Char) (a : Int) : Prop where
  numeral : Numeral cs a
  lower : -2 ^ 63 ≤ a
  upper : a < 2 ^ 63

variable {cs : List Char} {n : Nat} {a b : Int}

theorem readDigits_eq_some_iff : readDigits cs = some n ↔ Digits cs n := by
  rw [readDigits]
  split
  · next h =>
    rw [Bool.and_eq_true_iff] at h
    obtain ⟨hne, hdigits⟩ := h
    rw [Option.some.injEq]
    constructor
    · rintro rfl
      exact ⟨by simpa using hne, by simpa using hdigits, rfl⟩
    · exact fun hn => hn.value_eq.symm
  · next h =>
    refine iff_of_false (fun hn => by cases hn) fun hn => h ?_
    rw [Bool.and_eq_true_iff]
    exact ⟨by simpa using hn.ne_nil, by simpa using hn.isDigit⟩

theorem Digits.not_sign (h : Digits cs n) (c : Char) (hc : c.isDigit = false) (ds : List Char) :
    cs ≠ c :: ds := by
  rintro rfl
  have hdigit := h.isDigit c (List.mem_cons_self ..)
  rw [hc] at hdigit
  cases hdigit

theorem readNat_eq_some_iff : readNat cs = some n ↔ Digits cs n ∨ ∃ ds, cs = '+' :: ds ∧ Digits ds n := by
  rw [readNat.eq_def]
  split
  · next ds =>
    rw [readDigits_eq_some_iff]
    constructor
    · exact fun h => .inr ⟨ds, rfl, h⟩
    · rintro (h | ⟨ds', heq, h⟩)
      · exact absurd rfl (h.not_sign '+' rfl ds)
      · cases heq
        exact h
  · next hplus =>
    rw [readDigits_eq_some_iff]
    refine (or_iff_left ?_).symm
    rintro ⟨ds, heq, -⟩
    exact hplus ds heq

theorem readInt_eq_some_iff : readInt cs = some a ↔ Numeral cs a := by
  rw [readInt.eq_def]
  split
  · next ds =>
    rw [Option.map_eq_some_iff]
    constructor
    · rintro ⟨_, hcast, rfl⟩
      obtain ⟨n, hn, rfl⟩ : ∃ n, readDigits ds = some n ∧ (n : Int) = _ := by
        simpa [Option.bind_eq_some_iff] using hcast
      exact .minus (readDigits_eq_some_iff.mp hn)
    · intro h
      cases h with
      | unsigned h => exact absurd rfl (h.not_sign '-' rfl ds)
      | minus h => exact ⟨_, Option.bind_eq_some_iff.mpr ⟨_, readDigits_eq_some_iff.mpr h, rfl⟩, rfl⟩
  · next hminus =>
    simp only [Option.map_eq_some_iff, readNat_eq_some_iff]
    constructor
    · rintro ⟨n, h | ⟨ds, rfl, h⟩, rfl⟩
      · exact .unsigned h
      · exact .plus h
    · intro h
      cases h with
      | unsigned h => exact ⟨_, .inl h, rfl⟩
      | plus h => exact ⟨_, .inr ⟨_, rfl, h⟩, rfl⟩
      | @minus ds n h => exact absurd rfl (hminus ds)

theorem readInt64_eq_some_iff : readInt64 cs = some a ↔ Numeral64 cs a := by
  rw [readInt64, Option.filter_eq_some_iff, readInt_eq_some_iff]
  simp only [Bool.and_eq_true, decide_eq_true_eq]
  constructor
  · rintro ⟨h, hlower, hupper⟩
    exact ⟨h, by omega, by omega⟩
  · intro h
    have hlower := h.lower
    have hupper := h.upper
    exact ⟨h.numeral, by omega, by omega⟩

/-- A numeral stands for one number. -/
theorem Numeral64.unique (h : Numeral64 cs a) (h' : Numeral64 cs b) : a = b :=
  Option.some.inj ((readInt64_eq_some_iff.mpr h).symm.trans (readInt64_eq_some_iff.mpr h'))

theorem digits_natDigits (n : Nat) : Digits (natDigits n) n :=
  readDigits_eq_some_iff.mp (readDigits_natDigits n)

theorem numeral_intDigits (a : Int) : Numeral (intDigits a) a := by
  cases a with
  | ofNat n => exact .unsigned (digits_natDigits n)
  | negSucc n => exact .minus (digits_natDigits (n + 1))

theorem Numeral.ne_nil (h : Numeral cs a) : cs ≠ [] := by
  cases h with
  | unsigned h => exact h.ne_nil
  | plus | minus => exact List.cons_ne_nil _ _

end FiniteDomain.Text
