import FiniteDomain.Text.Split
/-!
# Statistic lines

Each statistic is one line with its name in camel case; a block of them is closed by an end line.

For camel case a name is cut into words at separators, which are dropped, between a lower-case and
an upper-case letter, between letters and digits, and before the last capital of a row of capitals
that goes on in lower case. The first word is written in lower case, each other word with a
capital. Names are ASCII.
-/
namespace FiniteDomain.Camel

def isSeparator (c : Char) : Bool := c = '_' || c = '-' || c = ' '

/-- Whether a word ends between `a` and `b`, given what comes after `b`. -/
def breaksBetween (a b : Char) (after : Option Char) : Bool :=
  (a.isLower && b.isUpper) || (a.isDigit && b.isAlpha) || (a.isAlpha && b.isDigit) ||
    (a.isUpper && b.isUpper && after.any Char.isLower)

/-- Whether a word ends between `a` and the text that follows. -/
def breaksBefore (a : Char) : List Char → Bool
  | [] => false
  | b :: rest => breaksBetween a b rest.head?

/-- The pieces of a name, with an empty one where separators meet each other or an end. -/
def pieces : List Char → List (List Char)
  | [] => [[]]
  | c :: cs =>
    if isSeparator c then [] :: pieces cs
    else if breaksBefore c cs then [c] :: pieces cs
    else Text.prepend c (pieces cs)

def words (name : List Char) : List (List Char) := (pieces name).filter (!·.isEmpty)

def lower (word : List Char) : List Char := word.map Char.toLower

def capital : List Char → List Char
  | [] => []
  | c :: cs => c.toUpper :: lower cs

def join : List (List Char) → List Char
  | [] => []
  | first :: rest => lower first ++ rest.flatMap capital

end FiniteDomain.Camel

namespace FiniteDomain

/-- The name as one word in camel case. -/
def camelCase (name : String) : String := String.ofList (Camel.join (Camel.words name.toList))

namespace Statistic

def line (name value : String) : String := s!"%%%gridcsp-stat: {camelCase name}={value}"

def endLine : String := "%%%gridcsp-stat-end"

/-- The name of a statistic within a group; a group without a name adds nothing. -/
def within (group name : String) : String :=
  if group.isEmpty then name else group ++ "_" ++ name

/-- The lines of a group of counters, in order. -/
def lines (group : String) (counters : List (String × Nat)) : List String :=
  counters.map fun (name, value) => line (within group name) (toString value)

end Statistic

end FiniteDomain
