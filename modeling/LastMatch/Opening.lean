import LastMatch.Editor
import LastMatch.Selection
import LastMatch.Stdout

/-!
# Opening the last match

The program's main task: select a path from the input and print it, or print the editor's command
line for it, or launch the editor on it.

The order of the parts is fixed. The editor is resolved before anything is read, so a wrong
configuration fails at once; printing the path needs no editor and ignores it. Then the input is
read to its end, then the warning is given, and only then something is written or started.

A run is recorded as the list of its actions (`Record`), so what happens, in which order and how
often can be read off the record.
-/

namespace LastMatch

/-- What to do with the selected path. -/
inductive Mode where
  | launch
  | print
  /-- Print the command line that would launch the editor on it. -/
  | dryRun
  deriving DecidableEq, Repr

/-- A doubt about the input that does not stop a run. -/
inductive Warning where
  /-- There was no input, and the editor is opened with an empty path. -/
  | opensEmptyPath
  /-- There was no input, and the path is empty. -/
  | emptyPath
  | noDelimiter
  deriving DecidableEq, Repr

namespace Warning

def message : Warning → String
  | opensEmptyPath => "no input on stdin; opening editor with an empty path"
  | emptyPath => "no input on stdin; the selected path is empty"
  | noDelimiter => "no ':' in last line; using the whole line as the path"

/-- The warning that a selection calls for. -/
def of (mode : Mode) : Selection → Option Warning
  | .empty => some (if mode = .launch then opensEmptyPath else emptyPath)
  | .bare _ => some noDelimiter
  | .matched _ => none

end Warning

inductive OpenError where
  | launch (e : LaunchError)
  | read (f : ReadFailure)
  /-- Standard output did not take the line, for the reason given. -/
  | write (reason : String)
  deriving DecidableEq, Repr

namespace OpenError

/-- The message of the error and of its causes, outermost first. -/
def messages : OpenError → List String
  | launch e => e.messages
  | read f => ["Failed to read stdin", f.text]
  | write reason => ["Failed to write to stdout", reason]

end OpenError

/-- A thing that a run does and that can be seen from outside. -/
inductive Action where
  | warned (w : Warning)
  | wrote (bytes : Bytes)
  /-- These words were to be started as a program with its arguments. -/
  | attempted (argv : List Bytes)
  deriving DecidableEq, Repr

namespace Action

/-- What is seen of a writing in which the system has taken some bytes. -/
def ofTaken : Bytes → List Action
  | [] => []
  | bytes => [wrote bytes]

/-- The words that were to be started as programs, in order. -/
def attempts (actions : List Action) : List (List Bytes) :=
  actions.filterMap fun | attempted argv => some argv | _ => none

end Action

/-- What a run did, how it ended, and the part of the input that it did not look at. -/
structure Record where
  actions : List Action
  result : Except OpenError Outcome
  unread : Input

namespace Record

/-- What the program itself wrote to standard output. -/
def written (r : Record) : Bytes :=
  r.actions.flatMap fun | .wrote bytes => bytes | _ => []

def warnings (r : Record) : List Warning :=
  r.actions.filterMap fun | .warned w => some w | _ => none

def attempts (r : Record) : List (List Bytes) := Action.attempts r.actions

end Record

/-- A mode together with the editor that it needs. -/
inductive Purpose where
  | print
  | display (e : Editor)
  | launch (e : Editor)

/-- Writes a line. Where that fails, the part of it that the system has taken stays written. -/
def writeLine (host : Host) (bytes : Bytes) : List Action × Except OpenError Outcome :=
  let (result, out) := (Stdout.writeLine host.stdoutFault bytes).run.run .start
  (Action.ofTaken out.taken, (result.mapError .write).map fun _ => ⟨0, [], []⟩)

def Purpose.serve (host : Host) (path : Bytes) : Purpose → List Action × Except OpenError Outcome
  | print => writeLine host path
  | display e => writeLine host (e.displayCommand path)
  | launch e => ([.attempted (e.argv path)], (e.launch host path).mapError .launch)

/-- What to open and how: the editor command, if one is configured, the mode, and whether warnings
are left out. -/
structure Opening where
  editor : Option String
  mode : Mode
  quiet : Bool
  deriving DecidableEq, Repr

namespace Opening

/-- The purpose of an opening. Printing the path takes no notice of the editor. -/
def purpose (o : Opening) : Except LaunchError Purpose :=
  match o.mode with
  | .print => .ok .print
  | .dryRun => (Editor.parse o.editor).map .display
  | .launch => (Editor.parse o.editor).map .launch

def warnings (o : Opening) (s : Selection) : List Action :=
  if o.quiet then [] else (Warning.of o.mode s).toList.map .warned

/-- Selects a path from the input and serves the purpose with it. -/
def run (host : Host) (o : Opening) (input : Input) : Record :=
  match o.purpose with
  | .error e => { actions := [], result := .error (.launch e), unread := input }
  | .ok purpose =>
    match Selection.read input with
    | (.error f, unread) => { actions := [], result := .error (.read f), unread }
    | (.ok s, unread) =>
      let (actions, result) := purpose.serve host s.path
      { actions := o.warnings s ++ actions, result, unread }

end Opening

end LastMatch
