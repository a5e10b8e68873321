import LastMatch.Host.Script
import LastMatch.Path

/-!
# A host with the standard utilities

A host on which the standard utilities and the shell can be started and nothing else exists but a
few directories and plain files. `Standard.start` gives the reasons of an ordinary system for
everything that cannot be started.
-/

namespace LastMatch.Standard

/-! ## Executables -/

/-- Why a write to standard output fails if there is no room for it. -/
def noSpace : String := "No space left on device"

/-- The outcome if no write to standard output succeeds. A command that wrote nothing does not
notice. -/
def withoutStdout (name : Bytes) (o : Outcome) : Outcome :=
  if o.stdout.isEmpty then o
  else ⟨1, [], o.stderr ++ name ++ Utf8.encode (": write error: " ++ noSpace ++ "\n")⟩

inductive Executable where
  | utility (u : Utility)
  | shell
  deriving DecidableEq, Repr

namespace Executable

def ofName? (name : Bytes) : Option Executable :=
  if name = Utf8.encode "sh" then some .shell else (Utility.ofName? name).map .utility

/-- Runs an executable, called by a name, with its arguments. `full` says that nothing can be
written to standard output. -/
def run (e : Executable) (full : Bool) (called : Bytes) (args : List Bytes) : Outcome :=
  match e with
  | utility u => if full then withoutStdout called (u.run called args) else u.run called args
  | shell => Script.runShell full called args

end Executable

/-! ## Files -/

inductive Node where
  | directory
  | file
  | executable (e : Executable)
  deriving DecidableEq, Repr

/-- The directories that hold the executables. -/
def searchPath : List (List String) := [["usr", "bin"], ["bin"]]

/-- The directories, by the names that lead to them from the root. -/
def directories : List (List String) :=
  [[], ["bin"], ["dev"], ["etc"], ["home"], ["lib"], ["opt"], ["proc"], ["root"], ["sbin"], ["sys"],
   ["tmp"], ["usr"], ["usr", "bin"], ["usr", "lib"], ["usr", "share"], ["var"]]

def files : List (List String) := [["etc", "passwd"], ["etc", "hosts"], ["dev", "null"]]

def node? (names : List Bytes) : Option Node :=
  if directories.any fun d => d.map Utf8.encode = names then some .directory
  else if files.any fun f => f.map Utf8.encode = names then some .file
  else if searchPath.any fun d => d.map Utf8.encode = names.dropLast then
    (names.getLast?.bind Executable.ofName?).map .executable
  else none

/-! ## Paths -/

def nameLimit : Nat := 255

def pathLimit : Nat := 4095

/-- The length from which an argument is too long. -/
def argumentLimit : Nat := 131072

def permissionDenied : StartFailure := .refused "Permission denied (os error 13)"

def notDirectory : StartFailure := .refused "Not a directory (os error 20)"

def argumentTooLong : StartFailure := .refused "Argument list too long (os error 7)"

def nameTooLong : StartFailure := .refused "File name too long (os error 36)"

/-- Follows names from a place. A name can be followed in a directory only; an empty name and `.`
stay there. -/
def follow (place : List Bytes) : List Bytes → Except StartFailure Node
  | [] => match node? place with
    | some n => .ok n
    | none => .error .noSuchFile
  | name :: rest =>
    match node? place with
    | none => .error .noSuchFile
    | some .directory =>
      if name.length > nameLimit then .error nameTooLong
      else if name.isEmpty || name = Path.here then follow place rest
      else if name = Path.above then follow place.dropLast rest
      else follow (place ++ [name]) rest
    | some _ => .error notDirectory

/-- The current directory, which is empty. -/
def currentDirectory : List Bytes := [Utf8.encode "tmp"]

def lookUp (path : Bytes) : Except StartFailure Node :=
  if path.length > pathLimit then .error nameTooLong
  else match Path.names path with
    | [] :: names => follow [] names
    | names => follow currentDirectory names

/-- What the name of a program leads to. A name with a slash is a path; another one is looked for
where the executables are. -/
def find (program : Bytes) : Except StartFailure Node :=
  if Path.slash ∈ program then lookUp program
  else if program.length > nameLimit then .error nameTooLong
  else
    match Executable.ofName? program with
    | some e => .ok (.executable e)
    | none =>
      if program = Path.here ∨ program = Path.above then .ok .directory
      else .error .noSuchFile

/-! ## Starting -/

/-- Starts a program with its arguments. `full` says that nothing can be written to standard
output. -/
def start (full : Bool) : List Bytes → Except StartFailure Outcome
  | [] => .error .noSuchFile
  | program :: args =>
    match find program with
    | .error e => .error e
    | .ok (.executable e) =>
      -- no argument is looked at before the program is found
      if args.any (·.length ≥ argumentLimit) then .error argumentTooLong
      else .ok (e.run full program args)
    | .ok _ => .error permissionDenied

/-- The host. If `full` holds, every write to standard output fails. -/
def host (full : Bool) : Host where
  stdoutFault := if full then some ⟨0, noSpace ++ " (os error 28)"⟩ else none
  start := start full

end LastMatch.Standard
