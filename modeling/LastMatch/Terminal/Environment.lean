import LastMatch.Text.Utf8

/-!
# Environment variables
-/

namespace LastMatch

/-- Environment variables, by name. A value is any byte string. -/
abbrev Environment := List (String × Bytes)

namespace Environment

def bytes? (env : Environment) (name : String) : Option Bytes := env.lookup name

/-- The value of a variable as a text. A value that is no text counts as not set. -/
def text? (env : Environment) (name : String) : Option String :=
  (env.bytes? name).bind Utf8.decode?

end Environment

end LastMatch
