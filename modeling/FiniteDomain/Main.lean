import FiniteDomain.CommandLine.Program
/-!
# Entry point

Reads the file named on the command line, and prints what the program answers.
-/
namespace FiniteDomain.CommandLine

def usageLines : List String :=
  ["Usage: gridcsp-solver [OPTIONS] <INSTANCE_PATH>", "", "Options:"] ++
    Setting.all.map (fun s => s!"      --{s.name} <VALUE>") ++
    Switch.all.map fun s => s!"  -{s.letter}, --{s.name}"

/-- An error number is positive, whichever sign it is reported with. -/
def errorNumber (code : UInt32) : Nat := code.toInt32.toInt.natAbs

def fileProblem : IO.Error → Futoshiki.FileProblem
  | .noFileOrDirectory .. => .notFound
  | .inappropriateType _ code text => .ofNumber (errorNumber code) text.capitalize
  | .permissionDenied _ code text => .ofNumber (errorNumber code) text.capitalize
  | .invalidArgument _ code text => .ofNumber (errorNumber code) text.capitalize
  | e => .system (toString e) 5

def readContents (path : String) : IO (Except Futoshiki.FileProblem ByteArray) := do
  try
    return .ok (← IO.FS.readBinFile path)
  catch e => return .error (fileProblem e)

/-- Nanoseconds as seconds. -/
def secondsText (nanoseconds : Nat) : String :=
  let fraction := Text.natDigits (nanoseconds % 1000000000)
  s!"{nanoseconds / 1000000000}." ++
    String.ofList (List.replicate (9 - fraction.length) '0' ++ fraction)

end FiniteDomain.CommandLine

open FiniteDomain CommandLine in
def main (args : List String) : IO UInt32 := do
  match Request.parse args with
  | .error e =>
    IO.eprintln s!"error: {e.message}"
    return 2
  | .ok .help =>
    for line in usageLines do IO.println line
    return 0
  | .ok .version =>
    IO.println "gridcsp-solver 0.1.0"
    return 0
  | .ok (.solve a) =>
    let contents ← readContents a.path
    let start ← IO.monoNanosNow
    let execution ← IO.lazyPure fun _ => execute a contents
    let stop ← IO.monoNanosNow
    for line in execution.output (secondsText (stop - start)) do IO.println line
    return execution.status.toUInt32
