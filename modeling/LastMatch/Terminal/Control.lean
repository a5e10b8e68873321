/-!
# Control characters and escape sequences

A terminal does not show every character of a text: control characters steer it, and an escape
character starts a sequence that does. `strip` keeps what is shown.

A sequence is read as far as the terminal would read it, so one that is broken off takes the rest of
the text with it. A tab or a line end inside a sequence interrupts it, and `Interruption` says what
becomes of it then. `strip_of_isShown` says that a text without control characters stays as it is.
-/

namespace LastMatch.Control

/-! ## Characters -/

/-- The control characters that only lay text out: tab, line feed, form feed, carriage return. -/
def isLayout (c : Char) : Bool := c ∈ ['\t', '\n', '\x0c', '\r']

/-- Is the character shown where no sequence is open? -/
def isShown (c : Char) : Bool := isLayout c || (' ' ≤ c && c ≠ '\x7f')

/-- The characters that stand between the parameters and the end of a sequence. -/
def isIntermediate (c : Char) : Bool := ' ' ≤ c && c ≤ '/'

def isParameter (c : Char) : Bool := '0' ≤ c && c ≤ '?'

/-- The parameter characters that may only stand first. -/
def isPrivate (c : Char) : Bool := '<' ≤ c && c ≤ '?'

/-- The characters that end a sequence with parameters. -/
def isFinal (c : Char) : Bool := '@' ≤ c && c ≤ '~'

/-- Does the character end a string? The byte 9C does, even inside the encoding of a character. -/
def endsString (c : Char) : Bool := 0x9C ∈ String.utf8EncodeChar c

/-! ## Sequences -/

/-- What the terminal is in the middle of. -/
inductive State where
  | text
  /-- The escape character has just been read. -/
  | escape
  /-- A short sequence, past its first intermediate character. -/
  | short
  /-- A control sequence: parameters, intermediate characters, and a final one. -/
  | sequence
  /-- The head of a device string, before its parameters. -/
  | device
  /-- The head of a device string, within its parameters. -/
  | deviceParameters
  /-- The head of a device string, past its parameters. -/
  | deviceIntermediates
  /-- A string that the terminal keeps to itself. -/
  | string
  /-- A command to the system around the terminal. It is text that ends with a bell. -/
  | command
  deriving DecidableEq, Repr

namespace State

/-- What is opened by the character that follows the escape character. Most are sequences of their
own and complete. -/
def opened (c : Char) : State :=
  if c = '[' then sequence
  else if c = ']' then command
  else if c = 'P' then device
  else if c ∈ ['X', '^', '_'] then string
  else text

/-- Is the character shown? Inside a short sequence or a control sequence, layout is. -/
def shows (s : State) (c : Char) : Bool :=
  match s with
  | text => isShown c
  | escape | short | sequence => isLayout c
  | device | deviceParameters | deviceIntermediates | string | command => false

/-- The state after a character that is not shown. Three characters act in every state: one starts a
sequence afresh, two break it off. -/
def next (s : State) (c : Char) : State :=
  if c = '\x1b' then escape
  else if c = '\x18' || c = '\x1a' then text
  else
    match s with
    | text => text
    | escape =>
      if isIntermediate c then short else if isParameter c || isFinal c then opened c else escape
    | short => if isParameter c || isFinal c then text else short
    | sequence => if isFinal c then text else sequence
    | device =>
      if isIntermediate c then deviceIntermediates
      else if isParameter c then deviceParameters
      else if isFinal c then string
      else device
    | deviceParameters =>
      if isIntermediate c then deviceIntermediates
      else if isPrivate c || isFinal c then string
      else deviceParameters
    | deviceIntermediates => if isParameter c || isFinal c then string else deviceIntermediates
    | string => if endsString c then text else string
    | command => if c = '\x07' then text else command

end State

/-! ## Texts -/

/-- What becomes of a sequence that layout interrupts. -/
inductive Interruption where
  | ends
  /-- It goes on at the next control character, unless a character beyond ASCII stands before. -/
  | suspends
  deriving DecidableEq, Repr

namespace Interruption

/-- The state behind a character that is shown. -/
def resume (i : Interruption) (s : State) (c : Char) : State :=
  match i with
  | ends => .text
  | suspends => if c.toNat < 0x80 then s else .text

end Interruption

/-- The characters that are shown. Unless `isOpen` holds, what is read is text that interrupts the
sequence of the state. -/
def stripFrom (i : Interruption) (s : State) (isOpen : Bool) : List Char → List Char
  | [] => []
  | c :: cs =>
    if if isOpen then s.shows c else isShown c then
      c :: stripFrom i (i.resume s c) false cs
    else stripFrom i (s.next c) true cs

/-- The text as a terminal shows it. -/
def strip (i : Interruption) (s : String) : String :=
  String.ofList (stripFrom i .text true s.toList)

theorem resume_text (i : Interruption) (c : Char) : i.resume .text c = .text := by
  cases i <;> simp [Interruption.resume]

theorem stripFrom_of_isShown {i : Interruption} {b : Bool} {cs : List Char}
    (h : ∀ c ∈ cs, isShown c) : stripFrom i .text b cs = cs := by
  induction cs generalizing b with
  | nil => rfl
  | cons c cs ih =>
    have hc : isShown c := h c List.mem_cons_self
    simp [stripFrom, State.shows, resume_text, hc, ih fun d hd => h d (List.mem_cons_of_mem c hd)]

/-- A text of which every character is shown stays as it is. -/
theorem strip_of_isShown {i : Interruption} {s : String} (h : ∀ c ∈ s.toList, isShown c) :
    strip i s = s := by
  simp [strip, stripFrom_of_isShown h]

end LastMatch.Control
