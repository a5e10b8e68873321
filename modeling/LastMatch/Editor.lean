import LastMatch.Launch
import LastMatch.Text.Blank
import LastMatch.Words.Quote
import LastMatch.Words.Split

/-!
# Editors

An editor is configured by a command such as `code --wait`: a program and arguments of its own, to
which a path is added when it is launched.

* `Editor.parse` reads the command, with the quoting rules of a shell.
* `Editor.argv` is the list of words that a launch hands to the system.
* `Editor.displayCommand` is the same list as a command line that a shell reads back.
* `Editor.launch` starts the editor.
-/

namespace LastMatch

/-- An editor: the program and the arguments that stand before the path. -/
structure Editor where
  program : String
  args : List String
  program_ne_empty : program ≠ ""
  deriving DecidableEq

/-- Why an editor cannot be resolved or started. -/
inductive LaunchError where
  /-- No command was given, or one without a program. -/
  | notConfigured
  /-- The command has an open quotation mark, or a backslash at its end. -/
  | invalidSyntax (command : String)
  | notFound (program : String)
  /-- The program could not be started for another reason. -/
  | notStarted (program : String) (reason : String)
  deriving DecidableEq, Repr

namespace LaunchError

/-- The message, and after it the message of the cause, if that is told apart. -/
def messages : LaunchError → List String
  | notConfigured => ["no editor configured; set $EDITOR or pass --editor"]
  | invalidSyntax command => ["invalid editor command syntax: " ++ command]
  | notFound program => [program ++ ": command not found"]
  | notStarted program reason => ["failed to launch editor: " ++ program, reason]

end LaunchError

namespace Editor

/-- The editor of a command that was split into words: the first one is the program. -/
def ofWords : List String → Except LaunchError Editor
  | [] => .error .notConfigured
  | program :: args =>
    if h : program = "" then .error .notConfigured
    else .ok { program, args, program_ne_empty := h }

/-- The editor of a command without blanks around it. The words of a text are texts themselves, so
nothing is replaced where they are decoded. -/
def ofTrimmed (command : String) : Except LaunchError Editor :=
  match Words.split (Utf8.encode command) with
  | none => .error (.invalidSyntax command)
  | some words => ofWords (words.map Utf8.decodeLossy)

/-- Resolves the configured command. Blanks around it are removed before it is split. -/
def parse : Option String → Except LaunchError Editor
  | none => .error .notConfigured
  | some command => ofTrimmed (Text.trim command)

/-- The words that a launch on a path consists of: the program, its arguments, the path. -/
def argv (e : Editor) (path : Bytes) : List Bytes :=
  Utf8.encode e.program :: e.args.map Utf8.encode ++ [path]

/-- The command line of a launch on a path, quoted for a shell. -/
def displayCommand (e : Editor) (path : Bytes) : Bytes := Words.commandLine (e.argv path)

/-- Why words with a NUL cannot be handed to the system: the NUL would end them. -/
def nulReason : String := "nul byte found in provided data"

/-- Launches the editor on a path. With a NUL in one of the words nothing is started. -/
def launch (host : Host) (e : Editor) (path : Bytes) : Except LaunchError Outcome :=
  -- looked at before the program is, so a missing program is not told apart
  if (e.argv path).any (0 ∈ ·) then .error (.notStarted e.program nulReason)
  else
    match host.start (e.argv path) with
    | .ok outcome => .ok outcome
    | .error .noSuchFile => .error (.notFound e.program)
    | .error (.refused reason) => .error (.notStarted e.program reason)

end Editor

end LastMatch
