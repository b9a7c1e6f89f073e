import FiniteDomain.Futoshiki.Board.Parser
import FiniteDomain.Futoshiki.Model
/-!
# Failures

Why no answer is given for a board: its file, its text or its model is at fault.
-/
namespace FiniteDomain.Futoshiki

/-- What goes wrong with the file of a board. -/
inductive FileProblem where
  /-- What the system says about opening or reading it, with its error number. -/
  | system (text : String) (code : Nat)
  | invalidText
deriving DecidableEq

namespace FileProblem

def notFound : FileProblem := system "No such file or directory" 2

def permissionDenied : FileProblem := system "Permission denied" 13

def notADirectory : FileProblem := system "Not a directory" 20

def isADirectory : FileProblem := system "Is a directory" 21

def nameTooLong : FileProblem := system "File name too long" 36

/-- The problem with an error number. The words at hand stand in where no usual ones are known. -/
def ofNumber (code : Nat) (words : String) : FileProblem :=
  match code with
  | 2 => notFound
  | 13 => permissionDenied
  | 20 => notADirectory
  | 21 => isADirectory
  | 36 => nameTooLong
  | _ => system words code

def message : FileProblem → String
  | system text code => s!"{text} (os error {code})"
  | invalidText => "stream did not contain valid UTF-8"

end FileProblem

/-- Why a board is not solved. -/
inductive Failure where
  | file (why : FileProblem)
  | unsupportedFile (path : String)
  | invalidBoard (e : ParseError)
  | model (e : ModelError)
  | breach (b : Breach)
deriving DecidableEq

namespace Failure

def message : Failure → String
  | file why => s!"IO error, more details: {why.message}"
  | unsupportedFile path => s!"The file {path} is not supported."
  | invalidBoard e => s!"The futoshiki board was invalid, more details: {e.message}"
  | model e => s!"Failed to build the model, more details: {e.message}"
  | breach b => b.message

def ofBuildError : BuildError → Failure
  | .model e => model e
  | .breach b => breach b

end Failure

end FiniteDomain.Futoshiki
