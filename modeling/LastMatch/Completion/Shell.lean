/-!
# Shells with completion scripts
-/

namespace LastMatch

/-- A shell for which there is a completion script. -/
inductive Shell where
  | bash
  | elvish
  | fish
  | powershell
  | zsh
  deriving DecidableEq, Repr

namespace Shell

def all : List Shell := [bash, elvish, fish, powershell, zsh]

def name : Shell → String
  | bash => "bash"
  | elvish => "elvish"
  | fish => "fish"
  | powershell => "powershell"
  | zsh => "zsh"

/-- The shell with this name, spelt exactly so. -/
def ofName? (name : String) : Option Shell := all.find? (·.name = name)

theorem ofName?_name (s : Shell) : ofName? s.name = some s := by
  cases s <;> decide

end Shell

end LastMatch
