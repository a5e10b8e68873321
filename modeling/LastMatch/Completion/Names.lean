import LastMatch.Options.Table

/-!
# Option names in completion scripts

What the completion scripts of several shells have in common.
-/

namespace LastMatch.Completion

/-- The options in the order of most scripts: those that take a value, then the others. -/
def ordered : List Opt :=
  Opt.all.filter Opt.takesValue ++ Opt.all.filter (!·.takesValue)

def dashedLetter? (o : Opt) : Option String := o.letter?.map fun c => String.ofList ['-', c]

def replaceApostrophe (replacement : String) (s : String) : String :=
  String.join (s.toList.map fun c => if c = '\'' then replacement else String.singleton c)

end LastMatch.Completion
