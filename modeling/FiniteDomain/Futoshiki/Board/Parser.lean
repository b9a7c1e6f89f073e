import FiniteDomain.Futoshiki.Board.Basic
import FiniteDomain.Text.Split
import FiniteDomain.Text.Decimal
/-!
# Reading boards

A board is written in lines of tokens. Lines of cells alternate with lines of relations between a
row and the next; in a line of cells, cells alternate with relations. The first line fixes the
size. Blank lines and lines that start with `#` are skipped, but counted in line numbers.
-/
namespace FiniteDomain.Futoshiki

inductive ParseError where
  | emptyBoard
  | evenTokenCount (line found : Nat)
  | wrongTokenCount (line expected found : Nat)
  | unknownToken (line : Nat) (token : String)
  | valueOutOfRange (line : Nat) (value : Int) (size : Nat)
  | wrongLineCount (expected found : Nat)
deriving DecidableEq

namespace ParseError

def message : ParseError → String
  | emptyBoard => "the board does not contain any rows"
  | evenTokenCount line found =>
    s!"line {line}: a cell row needs an odd number of tokens, found {found}"
  | wrongTokenCount line expected found =>
    s!"line {line}: expected {expected} tokens, found {found}"
  | unknownToken line token => s!"line {line}: unknown token '{token}'"
  | valueOutOfRange line value size =>
    s!"line {line}: cell value {value} is outside 1..={size}"
  | wrongLineCount expected found => s!"expected {expected} significant lines, found {found}"

end ParseError

/-- A line that says something about the board: its number in the text, and its tokens. -/
structure TokenLine where
  number : Nat
  tokens : List (List Char)
deriving DecidableEq

namespace Board

/-- Whether the tokens of a line are more than a comment. -/
def isSignificant : List (List Char) → Bool
  | [] => false
  | token :: _ => token.head? != some '#'

/-- The significant lines of a text with their numbers, which start at one. -/
def significantLines (text : List Char) : List TokenLine :=
  ((Text.lines text).zipIdx 1).filterMap fun (line, number) =>
    let tokens := Text.words line
    if isSignificant tokens then some ⟨number, tokens⟩ else none

/-- An empty cell, or a value between one and the size. -/
def readCell (size line : Nat) (token : List Char) : Except ParseError (Option Int) :=
  if token = ['.'] || token = ['0'] then .ok none
  else
    match Text.readInt64 token with
    | none => .error (.unknownToken line (String.ofList token))
    | some value =>
      if 1 ≤ value ∧ value ≤ size then .ok (some value)
      else .error (.valueOutOfRange line value size)

def readRelation (d : Direction) (line : Nat) (token : List Char) :
    Except ParseError (Option Relation) :=
  match readSign d token with
  | none => .error (.unknownToken line (String.ofList token))
  | some r => .ok r

/-- Tokens of a line of cells in turn: cells, and the relations between them. -/
def readCells (size line : Nat) :
    List (List Char) → Except ParseError (List (Option Int) × List (Option Relation))
  | [] => .ok ([], [])
  | [token] => return ([← readCell size line token], [])
  | token :: between :: rest => do
    let cell ← readCell size line token
    let relation ← readRelation .across line between
    let (cells, relations) ← readCells size line rest
    return (cell :: cells, relation :: relations)

def expectTokens (l : TokenLine) (expected : Nat) : Except ParseError Unit :=
  if l.tokens.length = expected then .ok ()
  else .error (.wrongTokenCount l.number expected l.tokens.length)

def readCellLine (size : Nat) (l : TokenLine) :
    Except ParseError (List (Option Int) × List (Option Relation)) := do
  expectTokens l (2 * size - 1)
  readCells size l.number l.tokens

def readDownLine (size : Nat) (l : TokenLine) : Except ParseError (List (Option Relation)) := do
  expectTokens l size
  l.tokens.mapM (readRelation .down l.number)

/-- Lines of cells and lines of relations in turn, up to the first fault. -/
def readLines (size : Nat) : List TokenLine → Except ParseError Board
  | [] => .ok ⟨size, [], [], []⟩
  | [l] => do
    let (cells, across) ← readCellLine size l
    return ⟨size, [cells], [across], []⟩
  | l :: m :: rest => do
    let (cells, across) ← readCellLine size l
    let down ← readDownLine size m
    let b ← readLines size rest
    return ⟨size, cells :: b.cells, across :: b.across, down :: b.down⟩

/-- The board of some significant lines. Lines beyond the last of the board are counted, not read. -/
def ofLines : List TokenLine → Except ParseError Board
  | [] => .error .emptyBoard
  | first :: rest =>
    let found := first.tokens.length
    if found % 2 = 0 then .error (.evenTokenCount first.number found)
    else do
      let size := (found + 1) / 2
      let expected := 2 * size - 1
      let b ← readLines size ((first :: rest).take expected)
      if rest.length + 1 = expected then return b
      else throw (.wrongLineCount expected (rest.length + 1))

def parse (text : String) : Except ParseError Board := ofLines (significantLines text.toList)

end Board

end FiniteDomain.Futoshiki
