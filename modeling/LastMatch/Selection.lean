import LastMatch.Input

/-!
# The selected path

The path is taken from the last line of the input, which usually has the form `path:line:text`.

* `LineCursor` follows a stream and remembers its last line only.
* `pathOf` is the part of a line before the first `:`.
* `Selection` is the path together with how it was found.
-/

namespace LastMatch

/-- The byte between a path and the rest of its line. -/
def delimiter : UInt8 := ':'.toUInt8

def newline : UInt8 := '\n'.toUInt8

/-- The byte that may stand before the end of a line and then belongs to it. -/
def carriageReturn : UInt8 := '\r'.toUInt8

/-! ## The last line -/

/-- A place in a stream. It holds the line that the last newline ended and the bytes after that
newline, both last byte first. -/
structure LineCursor where
  ended : Option Bytes
  current : Bytes
  deriving DecidableEq, Repr

namespace LineCursor

def start : LineCursor := ⟨none, []⟩

def step (c : LineCursor) (b : UInt8) : LineCursor :=
  if b = newline then ⟨some c.current, []⟩ else { c with current := b :: c.current }

/-- A line, last byte first, without one carriage return at its end. -/
def dropReturn : Bytes → Bytes
  | b :: l => if b = carriageReturn then l else b :: l
  | [] => []

/-- The last line if the stream ends here, without its ending. A newline ends a line and does not
start another. A carriage return belongs to the ending only before a newline. -/
def lastLine (c : LineCursor) : Option Bytes :=
  match c.current with
  -- the stream ends right after a newline, or is empty
  | [] => c.ended.map fun l => (dropReturn l).reverse
  | l => some l.reverse

end LineCursor

/-- The last line of a stream, or `none` if the stream has no bytes. -/
def lastLine (input : Input) : Except ReadFailure (Option Bytes) × Input :=
  let (result, unread) := input.readWith LineCursor.step LineCursor.start
  (result.map LineCursor.lastLine, unread)

/-! ## The path in it -/

/-- The part of a line before the first delimiter, or all of it. -/
def pathOf (line : Bytes) : Bytes := line.takeWhile (· ≠ delimiter)

/-- The path that was chosen, and how it was found. -/
inductive Selection where
  /-- The input had no lines. The path is empty. -/
  | empty
  /-- The last line has a delimiter, and the path stands before it. -/
  | matched (path : Bytes)
  /-- The last line has no delimiter and is itself the path. -/
  | bare (path : Bytes)
  deriving DecidableEq, Repr

namespace Selection

def path : Selection → Bytes
  | empty => []
  | matched p => p
  | bare p => p

def ofLine : Option Bytes → Selection
  | none => empty
  | some l => if delimiter ∈ l then matched (pathOf l) else bare l

def read (input : Input) : Except ReadFailure Selection × Input :=
  let (result, unread) := lastLine input
  (result.map ofLine, unread)

end Selection

end LastMatch
