import LastMatch.Completion.Names

/-!
# Completion in fish
-/

namespace LastMatch.Completion.Fish

/-- What tells fish about the value of an option: that there is one, and what to choose from. -/
def value (o : Opt) : String :=
  match o.takesValue, o.choices with
  | false, _ => ""
  | true, [] => " -r"
  | true, cs => " -r -f -a \"" ++ "\n".intercalate (cs.map (· ++ "\\t''")) ++ "\""

def declaration (o : Opt) : String :=
  "complete -c " ++ programName ++
    o.letter?.elim "" (fun c => String.ofList [' ', '-', 's', ' ', c]) ++
    " -l " ++ o.long ++ " -d '" ++ replaceApostrophe "\\'" o.summary ++ "'" ++ value o ++ "\n"

def script : String := String.join (ordered.map declaration)

end LastMatch.Completion.Fish
