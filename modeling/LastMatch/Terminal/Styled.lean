import LastMatch.Terminal.Control

/-!
# Styled text

Text in pieces, each of which plays a part in a message. The same text is rendered plain or with the
escape sequences of a terminal around its pieces. Pieces may hold words of the command line, and
these may hold escape sequences of their own: plain text is free of all of them.
-/

namespace LastMatch

/-- A piece of text, by the part that it plays. -/
inductive Piece where
  | plain (text : String)
  /-- The word that introduces an error. -/
  | error (text : String)
  /-- The head of a section. -/
  | heading (text : String)
  /-- What is typed as it stands: the name of the program or of an option. -/
  | literal (text : String)
  /-- A word of the command line that is at fault. -/
  | invalid (text : String)
  /-- A word that would be right. -/
  | valid (text : String)
  deriving DecidableEq, Repr

namespace Piece

def text : Piece → String
  | plain t | error t | heading t | literal t | invalid t | valid t => t

/-- The escape sequence before the piece. Plain text has none. -/
def opening? : Piece → Option String
  | plain _ => none
  | error _ => some "\x1b[1m\x1b[31m"
  | heading _ => some "\x1b[1m\x1b[4m"
  | literal _ => some "\x1b[1m"
  | invalid _ => some "\x1b[33m"
  | valid _ => some "\x1b[32m"

def coloured (p : Piece) : String :=
  match p.opening? with
  | none => p.text
  | some opening => opening ++ p.text ++ "\x1b[0m"

end Piece

abbrev Styled := List Piece

namespace Styled

/-- The text without escape sequences and other control characters. -/
def stripped (i : Control.Interruption) (t : Styled) : String :=
  String.join (t.map fun p => Control.strip i p.text)

/-- The text as a message without colour. -/
def plain (t : Styled) : String := t.stripped .ends

def coloured (t : Styled) : String := String.join (t.map Piece.coloured)

/-- The text as it is written to a stream, with escape sequences if `colour` holds. A stream without
colour takes up the sequences again that layout interrupts. -/
def render (colour : Bool) (t : Styled) : String :=
  if colour then t.coloured else t.stripped .suspends

end Styled

end LastMatch
