import LastMatch.Completion.Names

/-!
# Completion in bash
-/

namespace LastMatch.Completion.Bash

/-- The names of an option, long name first, each as it is typed. -/
def names (o : Opt) : List String := o.dashed :: (dashedLetter? o).toList

/-- What completes the value of an option: a file, or one of the values to choose from. -/
def generator (o : Opt) : String :=
  match o.choices with
  | [] => "compgen -f"
  | cs => "compgen -W \"" ++ " ".intercalate cs ++ "\" --"

/-- The branch that completes the value after one name of an option. -/
def valueBranch (o : Opt) (name : String) : String :=
  "                " ++ name ++ ")\n" ++
  "                    COMPREPLY=($(" ++ generator o ++ " \"$\x7bcur\x7d\"))\n" ++
  "                    return 0\n" ++
  "                    ;;\n"

/-- All names, as a word list: the letters, then the long names. -/
def wordList : String :=
  " ".intercalate (Opt.all.filterMap dashedLetter? ++ Opt.all.map Opt.dashed)

def script : String :=
  "_" ++ programName ++ "() \x7b\n" ++
  "    local i cur prev opts cmd\n" ++
  "    COMPREPLY=()\n" ++
  "    if [[ \"$\x7bBASH_VERSINFO[0]\x7d\" -ge 4 ]]; then\n" ++
  "        cur=\"$2\"\n" ++
  "    else\n" ++
  "        cur=\"$\x7bCOMP_WORDS[COMP_CWORD]\x7d\"\n" ++
  "    fi\n" ++
  "    prev=\"$3\"\n" ++
  "    cmd=\"\"\n" ++
  "    opts=\"\"\n" ++
  "\n" ++
  "    for i in \"$\x7bCOMP_WORDS[@]:0:COMP_CWORD\x7d\"\n" ++
  "    do\n" ++
  "        case \"$\x7bcmd\x7d,$\x7bi\x7d\" in\n" ++
  "            \",$1\")\n" ++
  "                cmd=\"" ++ programName ++ "\"\n" ++
  "                ;;\n" ++
  "            *)\n" ++
  "                ;;\n" ++
  "        esac\n" ++
  "    done\n" ++
  "\n" ++
  "    case \"$\x7bcmd\x7d\" in\n" ++
  "        " ++ programName ++ ")\n" ++
  "            opts=\"" ++ wordList ++ "\"\n" ++
  "            if [[ $\x7bcur\x7d == -* || $\x7bCOMP_CWORD\x7d -eq 1 ]] ; then\n" ++
  "                COMPREPLY=( $(compgen -W \"$\x7bopts\x7d\" -- \"$\x7bcur\x7d\") )\n" ++
  "                return 0\n" ++
  "            fi\n" ++
  "            case \"$\x7bprev\x7d\" in\n" ++
  String.join ((Opt.all.filter Opt.takesValue).flatMap fun o => (names o).map (valueBranch o)) ++
  "                *)\n" ++
  "                    COMPREPLY=()\n" ++
  "                    ;;\n" ++
  "            esac\n" ++
  "            COMPREPLY=( $(compgen -W \"$\x7bopts\x7d\" -- \"$\x7bcur\x7d\") )\n" ++
  "            return 0\n" ++
  "            ;;\n" ++
  "    esac\n" ++
  "\x7d\n" ++
  "\n" ++
  "if [[ \"$\x7bBASH_VERSINFO[0]\x7d\" -eq 4 && \"$\x7bBASH_VERSINFO[1]\x7d\" -ge 4 || " ++
  "\"$\x7bBASH_VERSINFO[0]\x7d\" -gt 4 ]]; then\n" ++
  "    complete -F _" ++ programName ++ " -o nosort -o bashdefault -o default " ++
      programName ++ "\n" ++
  "else\n" ++
  "    complete -F _" ++ programName ++ " -o bashdefault -o default " ++
      programName ++ "\n" ++
  "fi\n"

end LastMatch.Completion.Bash
