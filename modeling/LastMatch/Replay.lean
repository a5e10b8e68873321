import LastMatch.Editor

/-!
# Shown command lines as commands

The command line that an editor shows for a path can itself be configured as an editor command. In
a round, an editor shows a path and the line is read as the next command; rounds follow one
another, each with the editor that the round before gave.
-/

namespace LastMatch

/-- One round: the line shown, and what it gives as a command. A line that is no text gives
nothing. -/
structure Round where
  line : Bytes
  next : Option (Except LaunchError Editor)

namespace Round

def of (e : Editor) (path : Bytes) : Round :=
  let line := e.displayCommand path
  { line, next := (Utf8.decode? line).map fun command => Editor.parse (some command) }

/-- The editor after a round. It stays the same if the line gave none. -/
def editorAfter (e : Editor) (r : Round) : Editor :=
  match r.next with
  | some (.ok next) => next
  | _ => e

end Round

namespace Editor

/-- The rounds of an editor and some paths, in order. -/
def rounds : Editor → List Bytes → List Round
  | _, [] => []
  | e, path :: paths => Round.of e path :: rounds ((Round.of e path).editorAfter e) paths

def afterRounds (e : Editor) (paths : List Bytes) : Editor :=
  paths.foldl (fun e path => (Round.of e path).editorAfter e) e

end Editor

end LastMatch
