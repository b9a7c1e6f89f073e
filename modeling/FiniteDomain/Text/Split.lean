/-!
# Splitting text

Cutting a text at separators gives its pieces, in order and without the separators. Blank characters
separate words, and line feeds end lines.
-/
namespace FiniteDomain.Text

/-- Puts a character in front of the first piece. -/
def prepend (c : Char) : List (List Char) → List (List Char)
  | [] => [[c]]
  | piece :: pieces => (c :: piece) :: pieces

/-- The pieces between separators, empty ones included. -/
def split (isSeparator : Char → Bool) : List Char → List (List Char)
  | [] => [[]]
  | c :: cs =>
    if isSeparator c then [] :: split isSeparator cs else prepend c (split isSeparator cs)

theorem split_ne_nil (isSeparator : Char → Bool) (cs : List Char) : split isSeparator cs ≠ [] := by
  cases cs with
  | nil => simp [split]
  | cons c cs =>
    by_cases h : isSeparator c
    · simp [split, h]
    · cases hs : split isSeparator cs <;> simp [split, h, hs, prepend]

theorem split_of_all {isSeparator : Char → Bool} {cs : List Char}
    (h : ∀ c ∈ cs, isSeparator c = false) : split isSeparator cs = [cs] := by
  induction cs with
  | nil => rfl
  | cons c cs ih =>
    rw [split, h c (by simp), ih fun d hd => h d (by simp [hd])]
    rfl

/-- The Unicode property White_Space. -/
def isBlank (c : Char) : Bool :=
  (9 ≤ c.toNat && c.toNat ≤ 13) || c.toNat = 0x20 || c.toNat = 0x85 || c.toNat = 0xA0 ||
    c.toNat = 0x1680 || (0x2000 ≤ c.toNat && c.toNat ≤ 0x200A) || c.toNat = 0x2028 ||
    c.toNat = 0x2029 || c.toNat = 0x202F || c.toNat = 0x205F || c.toNat = 0x3000

/-- The longest runs of characters that are not blank. -/
def words (cs : List Char) : List (List Char) := (split isBlank cs).filter (!·.isEmpty)

/-- The lines of a text. A line ends at a line feed, together with a carriage return just before it.
What follows the last line feed is a line if there is anything. -/
def lines : List Char → List (List Char)
  | [] => []
  | c :: cs =>
    if c = '\n' then [] :: lines cs
    else if c = '\r' && cs.head? = some '\n' then lines cs
    else prepend c (lines cs)

theorem lines_append_cons {cs : List Char} (h : ∀ c ∈ cs, c ≠ '\n' ∧ c ≠ '\r') (rest : List Char) :
    lines (cs ++ '\n' :: rest) = cs :: lines rest := by
  induction cs with
  | nil => simp [lines]
  | cons c cs ih =>
    have hc := h c (by simp)
    have hcs := ih fun d hd => h d (by simp [hd])
    simp [lines, hc.1, hc.2, hcs, prepend]

end FiniteDomain.Text
