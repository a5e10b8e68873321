import LastMatch.Completion.Names

/-!
# Completion in zsh
-/

namespace LastMatch.Completion.Zsh

def quoted (s : String) : String := replaceApostrophe "'\\''" s

/-- The names that an option excludes, as a group before it. -/
def exclusions (o : Opt) : String :=
  match o.excludes? with
  | none => ""
  | some other => "(" ++ " ".intercalate ((dashedLetter? other).toList ++ [other.dashed]) ++ ")"

/-- What completes the value of an option, with the name of the value. -/
def value (o : Opt) : String :=
  match o.valueName?, o.choices with
  | none, _ => ""
  | some v, [] => ":" ++ v ++ ":_default"
  | some v, cs => ":" ++ v ++ ":(" ++ " ".intercalate cs ++ ")"

/-- The line for one name of an option. `joint` marks how a value is joined to the name. -/
def specification (o : Opt) (name joint : String) : String :=
  "'" ++ exclusions o ++ name ++ (if o.takesValue then joint else "") ++
    "[" ++ quoted o.summary ++ "]" ++ value o ++ "' \\\n"

def specifications (o : Opt) : List String :=
  ((dashedLetter? o).map fun name => specification o name "+").toList ++
    [specification o o.dashed "="]

def script : String :=
  "#compdef " ++ programName ++ "\n" ++
  "\n" ++
  "autoload -U is-at-least\n" ++
  "\n" ++
  "_" ++ programName ++ "() \x7b\n" ++
  "    typeset -A opt_args\n" ++
  "    typeset -a _arguments_options\n" ++
  "    local ret=1\n" ++
  "\n" ++
  "    if is-at-least 5.2; then\n" ++
  "        _arguments_options=(-s -S -C)\n" ++
  "    else\n" ++
  "        _arguments_options=(-s -C)\n" ++
  "    fi\n" ++
  "\n" ++
  "    local context curcontext=\"$curcontext\" state line\n" ++
  "    _arguments \"$\x7b_arguments_options[@]\x7d\" : \\\n" ++
  String.join (ordered.flatMap specifications) ++
  "&& ret=0\n" ++
  "\x7d\n" ++
  "\n" ++
  "(( $+functions[_" ++ programName ++ "_commands] )) ||\n" ++
  "_" ++ programName ++ "_commands() \x7b\n" ++
  "    local commands; commands=()\n" ++
  "    _describe -t commands '" ++ programName ++ " commands' commands \"$@\"\n" ++
  "\x7d\n" ++
  "\n" ++
  "if [ \"$funcstack[1]\" = \"_" ++ programName ++ "\" ]; then\n" ++
  "    _" ++ programName ++ " \"$@\"\n" ++
  "else\n" ++
  "    compdef _" ++ programName ++ " " ++ programName ++ "\n" ++
  "fi\n"

end LastMatch.Completion.Zsh
