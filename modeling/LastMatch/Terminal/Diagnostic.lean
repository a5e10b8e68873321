/-!
# Warnings and errors on standard error

A diagnostic is one line: a label and a message. Only the label is ever coloured.
-/

namespace LastMatch.Diagnostic

inductive Label where
  | warning
  | error
  deriving DecidableEq, Repr

namespace Label

def text : Label → String
  | warning => "warning:"
  | error => "error:"

/-- The escape sequence before a coloured label. -/
def opening : Label → String
  | warning => "\x1b[33m"
  | error => "\x1b[31;1m"

/-- The escape sequence after a coloured label. -/
def closing : Label → String
  | warning => "\x1b[39m"
  | error => "\x1b[0m"

/-- The label, in colour if `colour` holds. -/
def render (colour : Bool) (l : Label) : String :=
  if colour then l.opening ++ l.text ++ l.closing else l.text

end Label

def line (colour : Bool) (l : Label) (message : String) : String :=
  l.render colour ++ " " ++ message ++ "\n"

def warningLine (colour : Bool) (message : String) : String := line colour .warning message

/-- An error and its causes, outermost first, as a line. -/
def errorLine (colour : Bool) (messages : List String) : String :=
  line colour .error (": ".intercalate messages)

end LastMatch.Diagnostic
