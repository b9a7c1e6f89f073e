/-!
# Items of a command line

An argument is a path, or an option with one or two dashes. Options of one letter can be joined,
and a value can follow its option in the same argument or be the next one. After two dashes alone
every argument is a path. What is misspelled is an item as well, so that it counts only for a reader
who gets there.
-/
namespace FiniteDomain.CommandLine

/-- Options without a value. -/
inductive Switch where
  | allSolutions | logStatistics | verbose | help | version
deriving DecidableEq

/-- Options with a value. -/
inductive Setting where
  | propagator | model | variableSelection | valueSelection | randomSeed | solutionLimit
  | decisionLimit | timeLimit
deriving DecidableEq

namespace Switch

def all : List Switch := [allSolutions, logStatistics, verbose, help, version]

def name : Switch → String
  | allSolutions => "all-solutions"
  | logStatistics => "log-statistics"
  | verbose => "verbose"
  | help => "help"
  | version => "version"

def letter : Switch → Char
  | allSolutions => 'a'
  | logStatistics => 's'
  | verbose => 'v'
  | help => 'h'
  | version => 'V'

end Switch

namespace Setting

def all : List Setting :=
  [propagator, model, variableSelection, valueSelection, randomSeed, solutionLimit, decisionLimit,
    timeLimit]

def name : Setting → String
  | propagator => "propagator"
  | model => "model"
  | variableSelection => "variable-selection"
  | valueSelection => "value-selection"
  | randomSeed => "random-seed"
  | solutionLimit => "solution-limit"
  | decisionLimit => "decision-limit"
  | timeLimit => "time-limit"

def letter : Setting → Option Char
  | timeLimit => some 't'
  | _ => none

end Setting

inductive UsageError where
  | missingPath
  | emptyPath
  | secondPath (path : String)
  | unknownOption (text : String)
  | missingValue (s : Setting)
  | unexpectedValue (s : Switch)
  | repeatedSwitch (s : Switch)
  | repeatedSetting (s : Setting)
  | invalidValue (s : Setting) (value : String)
deriving DecidableEq

def UsageError.message : UsageError → String
  | missingPath => "the path of a board is missing"
  | emptyPath => "the path of a board is empty"
  | secondPath path => s!"unexpected argument {path}"
  | unknownOption text => s!"unknown option {text}"
  | missingValue s => s!"--{s.name} needs a value"
  | unexpectedValue s => s!"--{s.name} takes no value"
  | repeatedSwitch s => s!"--{s.name} is given more than once"
  | repeatedSetting s => s!"--{s.name} is given more than once"
  | invalidValue s value => s!"--{s.name} does not take the value {value}"

/-- What an argument says, or why it says nothing. -/
inductive Item where
  | path (text : String)
  | switch (s : Switch)
  | setting (s : Setting) (value : String)
  | wrong (e : UsageError)
deriving DecidableEq

/-- The items of an argument, and the setting that waits for its value in the next one. -/
abbrev Reading := List Item × Option Setting

/-- An option by its full name, perhaps with a value after an equals sign. -/
def readLong (text : List Char) : Reading :=
  let name := String.ofList (text.takeWhile (· != '='))
  let value := match text.dropWhile (· != '=') with
    | [] => none
    | _ :: value => some (String.ofList value)
  match Switch.all.find? (·.name = name), Setting.all.find? (·.name = name), value with
  | some s, _, none => ([.switch s], none)
  | some s, _, some _ => ([.wrong (.unexpectedValue s)], none)
  | none, some s, none => ([], some s)
  | none, some s, some value => ([.setting s value], none)
  | none, none, _ => ([.wrong (.unknownOption ("--" ++ name))], none)

/-- The value that follows an option letter in the same argument, perhaps after an equals sign. -/
def attachedValue : List Char → List Char
  | '=' :: cs => cs
  | cs => cs

/-- Options of one letter, joined. The first that takes a value ends the row. -/
def readLetters : List Char → Reading
  | [] => ([], none)
  | c :: cs =>
    match Switch.all.find? (·.letter = c), Setting.all.find? (·.letter = some c) with
    | some s, _ =>
      let (items, waiting) := readLetters cs
      (.switch s :: items, waiting)
    | none, some s =>
      if cs.isEmpty then ([], some s)
      else ([.setting s (String.ofList (attachedValue cs))], none)
    | none, none => ([.wrong (.unknownOption (String.ofList ['-', c]))], none)

/-- Whether an argument has the form of an option, so that it is no value. A dash alone has not. -/
def isOption : List Char → Bool
  | '-' :: _ :: _ => true
  | _ => false

/-- The items of the arguments after a setting that may wait for its value. -/
def readItems : Option Setting → List String → List Item
  | none, [] => []
  | some s, [] => [.wrong (.missingValue s)]
  | some s, arg :: args =>
    if isOption arg.toList then [.wrong (.missingValue s)] else .setting s arg :: readItems none args
  | none, arg :: args =>
    match arg.toList with
    | ['-', '-'] => args.map .path
    | '-' :: '-' :: text =>
      let (items, waiting) := readLong text
      items ++ readItems waiting args
    | '-' :: c :: cs =>
      let (items, waiting) := readLetters (c :: cs)
      items ++ readItems waiting args
    | _ => .path arg :: readItems none args

end FiniteDomain.CommandLine
