/-!
# Decimal numerals

Numbers are written without leading zeros, a negative one after a minus sign. Reading takes one or
more ASCII digits after an optional sign.
-/
namespace FiniteDomain.Text

/-- The digits of a number. -/
def natDigits (n : Nat) : List Char := Nat.toDigits 10 n

def intDigits : Int → List Char
  | .ofNat n => natDigits n
  | .negSucc n => '-' :: natDigits (n + 1)

/-- The number that one or more digits stand for. -/
def readDigits (cs : List Char) : Option Nat :=
  if !cs.isEmpty && cs.all Char.isDigit then some (Nat.ofDigitChars 10 cs 0) else none

/-- A number after an optional plus sign. -/
def readNat : List Char → Option Nat
  | '+' :: cs => readDigits cs
  | cs => readDigits cs

/-- A number after an optional sign. -/
def readInt : List Char → Option Int
  | '-' :: cs => (readDigits cs).map fun n => -(n : Int)
  | cs => (readNat cs).map Int.ofNat

/-- A signed number of 64 bits. -/
def readInt64 (cs : List Char) : Option Int :=
  (readInt cs).filter fun i => -0x8000000000000000 ≤ i && i < 0x8000000000000000

/-- An unsigned number of 64 bits. -/
def readNat64 (cs : List Char) : Option Nat := (readNat cs).filter (· < 0x10000000000000000)

theorem readDigits_natDigits (n : Nat) : readDigits (natDigits n) = some n := by
  have nonempty : (natDigits n).isEmpty = false := by
    simp [natDigits]
  have digits : (natDigits n).all Char.isDigit = true := by
    simpa [natDigits] using fun c => Nat.isDigit_of_mem_toDigits (by decide) (by decide)
  simp only [readDigits, nonempty, digits, Bool.not_false, Bool.and_self, if_true]
  exact congrArg some Nat.ofDigitChars_ten_toDigits

end FiniteDomain.Text
