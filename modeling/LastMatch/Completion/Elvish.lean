import LastMatch.Completion.Names

/-!
# Completion in elvish
-/

namespace LastMatch.Completion.Elvish

/-- The candidates for an option: its letter, then its long name. -/
def candidates (o : Opt) : List String :=
  ((dashedLetter? o).toList ++ [o.dashed]).map fun name =>
    "            cand " ++ name ++ " '" ++ replaceApostrophe "''" o.summary ++ "'\n"

def script : String :=
  "\n" ++
  "use builtin;\n" ++
  "use str;\n" ++
  "\n" ++
  "set edit:completion:arg-completer[" ++ programName ++ "] = \x7b|@words|\n" ++
  "    fn spaces \x7b|n|\n" ++
  "        builtin:repeat $n ' ' | str:join ''\n" ++
  "    \x7d\n" ++
  "    fn cand \x7b|text desc|\n" ++
  "        edit:complex-candidate $text &display=$text' '(spaces (- 14 (wcswidth $text)))$desc\n" ++
  "    \x7d\n" ++
  "    var command = '" ++ programName ++ "'\n" ++
  "    for word $words[1..-1] \x7b\n" ++
  "        if (str:has-prefix $word '-') \x7b\n" ++
  "            break\n" ++
  "        \x7d\n" ++
  "        set command = $command';'$word\n" ++
  "    \x7d\n" ++
  "    var completions = [\n" ++
  "        &'" ++ programName ++ "'= \x7b\n" ++
  String.join (ordered.flatMap candidates) ++
  "        \x7d\n" ++
  "    ]\n" ++
  "    $completions[$command]\n" ++
  "\x7d\n"

end LastMatch.Completion.Elvish
