import LastMatch.Text.Utf8

/-!
# Input as it arrives

A reader meets a stream as a sequence of events: pieces of data, of any size, and failures. An
interruption is a failure that only asks to try again; every other failure ends the reading. After
the last event the stream is at its end.

`readWith` folds a step over all the bytes of a stream. What it returns beside its result is the
events that it did not look at.
-/

namespace LastMatch

/-- What went wrong in a read, as far as the operating system tells kinds apart. -/
inductive FailureKind where
  | interrupted
  | brokenPipe
  | wouldBlock
  | unexpectedEnd
  | permissionDenied
  | notFound
  | invalidData
  | timedOut
  | other
  deriving DecidableEq, Repr

structure ReadFailure where
  kind : FailureKind
  text : String
  deriving DecidableEq, Repr

inductive ReadEvent where
  /-- Some bytes. No bytes are not the end of the stream. -/
  | data (bytes : Bytes)
  | failure (f : ReadFailure)
  deriving DecidableEq, Repr

/-- A stream, as the events that are still to come. -/
abbrev Input := List ReadEvent

namespace Input

variable {σ : Type}

/-- Reads a stream to its end, byte by byte. An interrupted read is tried again. Any other failure
is the result, and the events after it stay unread. -/
def readWith (step : σ → UInt8 → σ) (s : σ) : Input → Except ReadFailure σ × Input
  | [] => (.ok s, [])
  | .data bs :: rest => readWith step (bs.foldl step s) rest
  | .failure f :: rest =>
    if f.kind = .interrupted then readWith step s rest else (.error f, rest)

end Input

end LastMatch
