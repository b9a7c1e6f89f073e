import FiniteDomain.CommandLine.Arguments
import FiniteDomain.Text.Split
/-!
# The program

Boards come from files with the extension `txt` or `fut`. Log records are printed among the
results, each behind a percent sign. The exit status tells success, failure and wrong usage apart.
-/
namespace FiniteDomain

namespace FileName

/-- The parts of a path that name something: neither empty nor the directory itself. -/
def parts (path : List Char) : List (List Char) :=
  (Text.split (· = '/') path).filter fun part => part != [] && part != ['.']

/-- The last part of a path, unless it leads upwards. -/
def ofPath (path : List Char) : Option (List Char) :=
  (parts path).getLast?.filter (· != ['.', '.'])

/-- What follows the last point of a name, if something stands before that point. -/
def extension (name : List Char) : Option (List Char) :=
  match name.reverse.dropWhile (· != '.') with
  | _ :: _ :: _ => some (name.reverse.takeWhile (· != '.')).reverse
  | _ => none

end FileName

namespace CommandLine

open Futoshiki (Failure FileProblem Line)

/-- What a run of the program prints, and its exit status. -/
structure Execution where
  status : Nat
  lines : List Line
  /-- The solver of which statistics are to be printed. -/
  measured : Option Solver

namespace Execution

def lineText : Line → String
  | .event e => "% " ++ e.message
  | .text s => s

/-- The lines printed, given the text of the time that the search took. -/
def output (e : Execution) (solveTime : String) : List String :=
  e.lines.map lineText ++
    match e.measured with
    | none => []
    | some solver => solver.statisticLines solveTime

end Execution

/-- Whether the extension of a path is that of a board. -/
def isSupported (path : String) : Bool :=
  match (FileName.ofPath path.toList).bind FileName.extension with
  | some extension => extension = ['t', 'x', 't'] || extension = ['f', 'u', 't']
  | none => false

/-- Solves the board of a path, given the contents of the file there. -/
def report (a : Arguments) (contents : Except FileProblem ByteArray) : Futoshiki.Report :=
  if isSupported a.path then Futoshiki.solve a.task contents (some a.detail)
  else ⟨[], .error (.unsupportedFile a.path)⟩

def execute (a : Arguments) (contents : Except FileProblem ByteArray) : Execution :=
  let configured := (Journal.empty (some a.detail)).record .loggingConfigured
  let r := report a contents
  let lines := Futoshiki.eventLines configured ++ r.lines
  match r.result with
  | .error why => ⟨1, lines ++ [.event (.executionFailed why.message)], none⟩
  | .ok solver => ⟨0, lines, if a.logStatistics then some solver else none⟩

end CommandLine

end FiniteDomain
