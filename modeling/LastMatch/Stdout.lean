import LastMatch.Launch
import LastMatch.Selection

/-!
# Writing to standard output

A buffer stands before standard output. It holds the bytes of an unfinished line; those that a
newline ends are handed over to the system at once. So a write can succeed although the system has
not taken a byte of it yet, and fail although it has taken some.

* `Stdout` is the state: what the system has taken, and what the buffer holds.
* `Writing` is a part of the writing. The first one that fails ends it.
* `Stdout.writeLine` writes a line. It has three parts that can fail.
-/

namespace LastMatch

/-- Standard output while a run writes to it. -/
structure Stdout where
  /-- The bytes that the system has taken. -/
  taken : Bytes
  /-- The bytes in the buffer. -/
  waiting : Bytes

/-- A part of the writing. It can fail, for a reason that the system gives. -/
abbrev Writing := ExceptT String (StateM Stdout) Unit

/-- Bytes and the newline behind them. -/
def asLine (bytes : Bytes) : Bytes := bytes ++ [newline]

namespace Stdout

/-- The lines of some bytes, up to the last newline. -/
def ended (bs : Bytes) : Bytes := (bs.reverse.dropWhile (· ≠ newline)).reverse

/-- What stands behind the last newline. -/
def unended (bs : Bytes) : Bytes := (bs.reverse.takeWhile (· ≠ newline)).reverse

/-- Nothing has been written yet. -/
def start : Stdout := ⟨[], []⟩

/-- How many bytes the buffer has room for. -/
def capacity : Nat := 1024

section

variable (fault : Option StdoutFault)

/-- Hands bytes over to the system. Where it fails it has taken those that it had room for. -/
def handOver (bs : Bytes) : Writing := do
  let out ← get
  match fault with
  | none => set { out with taken := out.taken ++ bs }
  | some f =>
    let left := f.room - out.taken.length
    set { out with taken := out.taken ++ bs.take left }
    if left < bs.length then throw f.reason

/-- Hands over what the buffer holds. -/
def flush : Writing := do
  let out ← get
  -- what the system does not take here it never takes, so it need not be kept
  set { out with waiting := [] }
  handOver fault out.waiting

/-- Puts bytes into a buffer that has room for them, or is empty. They pass it by if they would fill
it. -/
def keep (bs : Bytes) : Writing := do
  if capacity ≤ bs.length then handOver fault bs
  else modify fun out => { out with waiting := out.waiting ++ bs }

/-- Puts bytes into the buffer, which is flushed before if they do not fit. -/
def hold (bs : Bytes) : Writing := do
  if capacity < (← get).waiting.length + bs.length then flush fault
  keep fault bs

/-- Hands bytes over behind those that the buffer holds. -/
def passOn (bs : Bytes) : Writing := do
  hold fault bs
  flush fault

/-- Writes bytes. The lines among them are passed on, and what stands behind the last newline is
held. -/
def write (bs : Bytes) : Writing := do
  if ended bs ≠ [] then passOn fault (ended bs)
  hold fault (unended bs)

/-- Writes bytes as a line, and leaves nothing in the buffer. -/
def writeLine (bytes : Bytes) : Writing := do
  write fault bytes
  write fault [newline]
  flush fault

end

end Stdout

end LastMatch
