import LastMatch.Completion.Script
import LastMatch.Opening
import LastMatch.Options.Message
import LastMatch.Options.Parse
import LastMatch.Path
import LastMatch.Terminal.Colour
import LastMatch.Terminal.Diagnostic

/-!
# The whole program

A run from the command line to the exit code: the options are read, then help or a completion script
is printed or the last match is opened, and errors are reported.

`Plan` is what the command line and the environment ask for; nothing has been read or done by then.
`run` carries it out.
-/

namespace LastMatch

/-! ## The name of the program -/

/-- The name that the program was called by: the file name in the first word of the command line. If
there is none, or if it is no text, the program's own name takes its place. -/
def calledName (commandLine : List Bytes) : String :=
  ((commandLine.head?.bind Path.fileName?).bind Utf8.decode?).getD programName

/-! ## Runs -/

/-- What a run is given: the command line with the name of the program, the environment, and
standard input. -/
structure Invocation where
  commandLine : List Bytes
  env : Environment
  stdin : Input

/-- What a run is to do. -/
inductive Plan where
  | answer (h : Halt)
  | complete (s : Shell)
  | opening (o : Opening)
  deriving DecidableEq

namespace Plan

/-- The opening that a request asks for. -/
def openingOf (r : Request) : Opening where
  editor := r.editor
  mode := if r.print then .print else if r.dryRun then .dryRun else .launch
  quiet := r.quiet

/-- The plan for a command line, with the editor that the environment names. -/
def make (commandLine : List Bytes) (env : Environment) : Plan :=
  match Request.parse commandLine (env.bytes? editorVariable) with
  | .error h => .answer h
  | .ok r =>
    -- a completion script is all that is printed, whatever else is asked for
    match r.completions with
    | some s => .complete s
    | none => .opening (openingOf r)

/-- Does the plan need the input? It does not if it fails before. -/
def readsInput : Plan → Bool
  | answer _ | complete _ => false
  | opening o => o.purpose.isOk

end Plan

/-- The exit code for an error of the program itself. -/
def failureCode : UInt8 := 1

/-- The exit code of a run that breaks off where it should never fail. -/
def brokenOffCode : UInt8 := 101

/-- What a run does and leaves behind. The actions are those of opening the last match. -/
structure Run where
  actions : List Action
  outcome : Outcome
  unread : Input

namespace Run

/-- A run that only prints a text. The part for which standard output has no room is lost. -/
def printing (host : Host) (input : Input) (text : String) : Run where
  actions := []
  outcome := ⟨0, host.cut (Utf8.encode text), []⟩
  unread := input

/-- A run that prints a completion script. Where standard output does not take all of it the run
breaks off; what it then says on standard error is left out. -/
def completing (host : Host) (input : Input) (s : Shell) : Run where
  actions := []
  outcome := ⟨if host.Takes (Utf8.encode s.script) then 0 else brokenOffCode,
    host.cut (Utf8.encode s.script), []⟩
  unread := input

def answering (host : Host) (i : Invocation) (h : Halt) : Run :=
  let text := (h.text (calledName i.commandLine)).render (Colour.forOptions i.env)
  if h.isError then ⟨[], ⟨h.code, [], Utf8.encode text⟩, i.stdin⟩
  else printing host i.stdin text

/-- The warnings of an opening, each on a line. -/
def warningLines (colour : Bool) (r : Record) : Bytes :=
  r.warnings.flatMap fun w => Utf8.encode (Diagnostic.warningLine colour w.message)

/-- What the record of an opening leaves behind: the warnings, then the output of the editor or the
error. -/
def outcomeOf (colour : Bool) (r : Record) : Outcome :=
  match r.result with
  | .ok o => ⟨o.code, r.written ++ o.stdout, warningLines colour r ++ o.stderr⟩
  | .error e =>
    { code := failureCode
      stdout := r.written
      stderr := warningLines colour r ++ Utf8.encode (Diagnostic.errorLine colour e.messages) }

def opening (host : Host) (i : Invocation) (o : Opening) : Run :=
  let record := o.run host i.stdin
  ⟨record.actions, outcomeOf (Colour.forDiagnostics i.env) record, record.unread⟩

end Run

def run (host : Host) (i : Invocation) : Run :=
  match Plan.make i.commandLine i.env with
  | .answer h => .answering host i h
  | .complete s => .completing host i.stdin s
  | .opening o => .opening host i o

end LastMatch
