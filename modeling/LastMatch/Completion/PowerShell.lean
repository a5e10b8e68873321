import LastMatch.Completion.Names

/-!
# Completion in PowerShell
-/

namespace LastMatch.Completion.PowerShell

/-- The result for one name of an option. The list text is given apart from the completion. -/
def result (o : Opt) (name listText : String) : String :=
  "            [CompletionResult]::new('" ++ name ++ "', '" ++ listText ++
    "', [CompletionResultType]::ParameterName, '" ++ replaceApostrophe "''" o.summary ++ "')\n"

/-- The results for an option: its letter, then its long name. List texts are compared without
regard to case, so that of a capital letter is made different by a space. -/
def results (o : Opt) : List String :=
  let letter := o.letter?.map fun c =>
    let name := String.ofList ['-', c]
    result o name (if c.isUpper then name ++ " " else name)
  letter.toList ++ [result o o.dashed o.dashed]

def script : String :=
  "\n" ++
  "using namespace System.Management.Automation\n" ++
  "using namespace System.Management.Automation.Language\n" ++
  "\n" ++
  "Register-ArgumentCompleter -Native -CommandName '" ++ programName ++ "' -ScriptBlock \x7b\n" ++
  "    param($wordToComplete, $commandAst, $cursorPosition)\n" ++
  "\n" ++
  "    $commandElements = $commandAst.CommandElements\n" ++
  "    $command = @(\n" ++
  "        '" ++ programName ++ "'\n" ++
  "        for ($i = 1; $i -lt $commandElements.Count; $i++) \x7b\n" ++
  "            $element = $commandElements[$i]\n" ++
  "            if ($element -isnot [StringConstantExpressionAst] -or\n" ++
  "                $element.StringConstantType -ne [StringConstantType]::BareWord -or\n" ++
  "                $element.Value.StartsWith('-') -or\n" ++
  "                $element.Value -eq $wordToComplete) \x7b\n" ++
  "                break\n" ++
  "        \x7d\n" ++
  "        $element.Value\n" ++
  "    \x7d) -join ';'\n" ++
  "\n" ++
  "    $completions = @(switch ($command) \x7b\n" ++
  "        '" ++ programName ++ "' \x7b\n" ++
  String.join (ordered.flatMap results) ++
  "            break\n" ++
  "        \x7d\n" ++
  "    \x7d)\n" ++
  "\n" ++
  "    $completions.Where\x7b $_.CompletionText -like \"$wordToComplete*\" \x7d |\n" ++
  "        Sort-Object -Property ListItemText\n" ++
  "\x7d\n"

end LastMatch.Completion.PowerShell
