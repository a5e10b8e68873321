import LastMatch.Completion.Bash
import LastMatch.Completion.Elvish
import LastMatch.Completion.Fish
import LastMatch.Completion.PowerShell
import LastMatch.Completion.Zsh

/-!
# Completion scripts

A script teaches a shell the options of the program. All scripts are made from the option table.
-/

namespace LastMatch

def Shell.script : Shell → String
  | bash => Completion.Bash.script
  | elvish => Completion.Elvish.script
  | fish => Completion.Fish.script
  | powershell => Completion.PowerShell.script
  | zsh => Completion.Zsh.script

end LastMatch
