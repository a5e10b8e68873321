import LastMatch.Text.Utf8

/-!
# Starting programs

What the library needs to know of the system it runs on: `Host` says how much standard output takes,
and what comes of starting a program.
-/

namespace LastMatch

/-- What a program that ran leaves behind: its exit code and all that it wrote. -/
structure Outcome where
  code : UInt8
  stdout : Bytes
  stderr : Bytes
  deriving DecidableEq, Repr

/-- Why a program could not be started. -/
inductive StartFailure where
  | noSuchFile
  /-- Any other refusal, in the words of the system. -/
  | refused (reason : String)
  deriving DecidableEq, Repr

/-- The path of the controlling terminal. A program that is started reads from it where there is
one, and else finds its standard input at the end. -/
def terminalPath : String := "/dev/tty"

/-- Where standard output stops taking bytes. There is room for some of them, and from then on every
write fails. -/
structure StdoutFault where
  /-- The number of bytes that are still taken. -/
  room : Nat
  /-- Why a write fails, in the words of the system. -/
  reason : String
  deriving DecidableEq, Repr

/-- The system around a run, which has no controlling terminal. -/
structure Host where
  /-- Where standard output fails, if it does. -/
  stdoutFault : Option StdoutFault
  /-- Starts a program with its arguments, the words given in this order, and waits for its end. -/
  start : List Bytes → Except StartFailure Outcome

namespace Host

/-- Standard output has room for all of the bytes. -/
def Takes (host : Host) (bytes : Bytes) : Prop :=
  ∀ f, host.stdoutFault = some f → bytes.length ≤ f.room

instance (host : Host) (bytes : Bytes) : Decidable (host.Takes bytes) :=
  match h : host.stdoutFault with
  | none => isTrue fun f hf => by simp [h] at hf
  | some f => decidable_of_iff (bytes.length ≤ f.room) (by simp [Takes, h])

/-- The bytes up to where standard output fails. -/
def cut (host : Host) (bytes : Bytes) : Bytes :=
  match host.stdoutFault with
  | none => bytes
  | some f => bytes.take f.room

end Host

end LastMatch
