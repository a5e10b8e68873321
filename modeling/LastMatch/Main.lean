import LastMatch.Host.Standard
import LastMatch.Program

/-!
# The command line

Takes in the command line, the environment and standard input, runs the program on them, and puts
out what the run leaves behind. Of editors, only the standard utilities can be started.
-/

namespace LastMatch

/-- Reads a stream to its end. A failed read is the last event. -/
partial def readEvents (stream : IO.FS.Stream) (events : Input) : IO Input := do
  match ← (stream.read 65536).toBaseIO with
  | .ok bytes =>
    if bytes.isEmpty then return events.reverse
    else readEvents stream (.data bytes.toList :: events)
  | .error e => return (.failure ⟨.other, toString e⟩ :: events).reverse

/-- The environment, as far as the program looks at it. -/
def readEnvironment : IO Environment := do
  let mut env : Environment := []
  for name in editorVariable :: Colour.consulted do
    if let some value ← IO.getEnv name then
      env := (name, Utf8.encode value) :: env
  return env

end LastMatch

open LastMatch

def main (args : List String) : IO UInt32 := do
  let commandLine := (programName :: args).map Utf8.encode
  let env ← readEnvironment
  -- where the run fails or answers before, the input is left to the caller
  let stdin ← if (Plan.make commandLine env).readsInput then readEvents (← IO.getStdin) []
    else pure []
  let outcome := (run (Standard.host false) { commandLine, env, stdin }).outcome
  let stderr ← IO.getStderr
  stderr.write outcome.stderr.toByteArray
  stderr.flush
  let stdout ← IO.getStdout
  stdout.write outcome.stdout.toByteArray
  stdout.flush
  return outcome.code.toUInt32
