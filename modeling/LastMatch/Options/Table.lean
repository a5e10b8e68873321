import LastMatch.Completion.Shell

/-!
# The command-line options

One table holds all that the parser, the help, the error messages and the completion scripts need to
know of the options.
-/

namespace LastMatch

def programName : String := "grepedit"

def programVersion : String := "0.1.0"

/-- The variable that names the editor where the option does not. -/
def editorVariable : String := "EDITOR"

inductive Opt where
  | editor
  | print
  | dryRun
  | quiet
  | completions
  | help
  | version
  deriving DecidableEq, Repr

namespace Opt

/-- All options, in the order in which they are listed. -/
def all : List Opt := [editor, print, dryRun, quiet, completions, help, version]

/-- The options that say what a run is to do. The others ask for a text in its place. -/
def settings : List Opt := [editor, print, dryRun, quiet, completions]

/-- The long name, which follows two hyphens. -/
def long : Opt → String
  | editor => "editor"
  | print => "print"
  | dryRun => "dry-run"
  | quiet => "quiet"
  | completions => "completions"
  | help => "help"
  | version => "version"

/-- The letter, which follows one hyphen. -/
def letter? : Opt → Option Char
  | editor => some 'e'
  | print => some 'p'
  | dryRun => some 'n'
  | quiet => some 'q'
  | completions => none
  | help => some 'h'
  | version => some 'V'

/-- What the value of the option is called, if it takes one. -/
def valueName? : Opt → Option String
  | editor => some "CMD"
  | completions => some "SHELL"
  | _ => none

def takesValue (o : Opt) : Bool := o.valueName?.isSome

/-- The values to choose from, if the option takes only some. -/
def choices : Opt → List String
  | completions => Shell.all.map Shell.name
  | _ => []

/-- The variable that stands in for the option. -/
def standIn? : Opt → Option String
  | editor => some editorVariable
  | _ => none

/-- The option that cannot be given together with this one. -/
def excludes? : Opt → Option Opt
  | print => some dryRun
  | _ => none

def summary : Opt → String
  | editor => "Editor command to run (may include arguments, e.g. \"code --wait\")"
  | print => "Print the selected path instead of opening it"
  | dryRun => "Print the editor command line instead of running it"
  | quiet => "Suppress warnings"
  | completions => "Print a shell completion script and exit"
  | help => "Print help (see more with '--help')"
  | version => "Print version"

def ofLong? (name : String) : Option Opt := all.find? (·.long = name)

def ofLetter? (c : Char) : Option Opt := all.find? (·.letter? = some c)

def dashed (o : Opt) : String := "--" ++ o.long

/-- What follows the name where a value is called for. -/
def placeholder (o : Opt) : String :=
  match o.valueName? with
  | some v => " <" ++ v ++ ">"
  | none => ""

/-- The option as messages name it, with its value. -/
def spelling (o : Opt) : String := o.dashed ++ o.placeholder

end Opt

end LastMatch
