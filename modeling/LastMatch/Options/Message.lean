import LastMatch.Options.Refusal
import LastMatch.Terminal.Styled
import LastMatch.Text.Similarity

/-!
# Help and complaints about the options

The texts that answer a command line which is not carried out: help in short and in full, the
version, and the messages of refusals.
-/

namespace LastMatch

/-! ## Parts -/

namespace Opt

/-- The long name of an option with its placeholder, as usage lines and help show it. -/
def styledName (o : Opt) : Styled := [.literal o.dashed, .plain o.placeholder]

/-- The letter and the long name of an option. Names without a letter are aligned. -/
def styledNames (o : Opt) : Styled :=
  match o.letter? with
  | some c => [.literal (String.ofList ['-', c]), .plain ", "] ++ o.styledName
  | none => .plain "    " :: o.styledName

/-- What the option does, for the help in short or in full. -/
def description (full : Bool) (o : Opt) : String :=
  match o, full with
  | .help, true => "Print help (see a summary with '-h')"
  | _, _ => o.summary

/-- A remark on where else the value can come from, or on the values to choose from. -/
def remark? (o : Opt) : Option String :=
  match o.standIn?, o.choices with
  | some v, _ => some ("[env: " ++ v ++ "]")
  | none, [] => none
  | none, cs => some ("[possible values: " ++ ", ".intercalate cs ++ "]")

end Opt

/-- What a usage line lists behind the name of the program. -/
inductive Usage where
  /-- These options, or that there are options where it is none in particular. -/
  | options (os : List Opt)
  /-- One of the settings, behind these options. -/
  | anySetting (os : List Opt)
  deriving DecidableEq, Repr

namespace Usage

def sideBySide (os : List Opt) : Styled := os.flatMap fun o => .plain " " :: o.styledName

def alternatives : String := "<" ++ "|".intercalate (Opt.settings.map Opt.spelling) ++ ">"

/-- The list, with a blank before each of its parts. -/
def list : Usage → Styled
  | options [] => [.plain " [OPTIONS]"]
  | options os => sideBySide os
  | anySetting os => sideBySide os ++ [.plain (" " ++ alternatives)]

/-- The usage line, for the name that the program was called by. -/
def line (name : String) (u : Usage) : Styled :=
  [.heading "Usage:", .plain " ", .literal name] ++ u.list

end Usage

/-! ## Help -/

namespace Help

/-- What the program is for, in a line. -/
def purpose : String := "Open the file of the last grep match in your editor"

/-- What the program is for, in full. -/
def fullPurpose : String :=
  purpose ++ ".\n\nReads `grep` output (`path:line:text`) from stdin and opens the path on the " ++
    "last line, e.g. `grep -rn TODO src | grepedit`."

/-- The width of the widest names of an option. -/
def nameWidth : Nat := (Opt.all.map (·.styledNames.plain.length)).foldl max 0

/-- An option in the help in short: one line. -/
def shortEntry (o : Opt) : Styled :=
  let gap := String.ofList (List.replicate (nameWidth - o.styledNames.plain.length + 2) ' ')
  let remark := o.remark?.elim "" (" " ++ ·)
  .plain "  " :: o.styledNames ++ [.plain (gap ++ o.description false ++ remark ++ "\n")]

/-- An option in the help in full: its names, and what is to be said of it in lines below. -/
def fullEntry (o : Opt) : Styled :=
  let indent := "\n          "
  let remark := o.remark?.elim "" (indent ++ indent ++ ·)
  .plain "  " :: o.styledNames ++ [.plain (indent ++ o.description true ++ remark ++ "\n")]

/-- The help text, for the name that the program was called by. -/
def text (full : Bool) (name : String) : Styled :=
  let entries := if full then [.plain "\n"].intercalate (Opt.all.map fullEntry)
    else Opt.all.flatMap shortEntry
  .plain ((if full then fullPurpose else purpose) ++ "\n\n") :: (Usage.options []).line name ++
    [.plain "\n\n", .heading "Options:", .plain "\n"] ++ entries

end Help

/-! ## Refusals -/

namespace Refusal

/-- The line that lists the values to choose from. -/
def choiceLine (o : Opt) : Styled :=
  match o.choices with
  | [] => []
  | cs =>
    .plain "\n  [possible values: " :: (cs.map Piece.valid).intersperse (.plain ", ") ++
      [.plain "]"]

/-- A hint at a word that was perhaps meant. -/
def tip (what : String) (word : String) : Styled :=
  [.plain "\n\n  ", .valid "tip:", .plain (" a similar " ++ what ++ " exists: '"), .valid word,
    .plain "'"]

def complaint : Refusal → Styled
  | unknown word similar _ =>
    [.plain "unexpected argument '", .invalid word, .plain "' found"] ++
      similar.elim [] fun o => tip "argument" o.dashed
  | missingValue o =>
    [.plain "a value is required for '", .invalid o.spelling,
      .plain "' but none was supplied"] ++ choiceLine o
  | invalidChoice o value =>
    [.plain "invalid value '", .invalid value, .plain "' for '", .literal o.spelling,
      .plain "'"] ++ choiceLine o ++ (Text.mostSimilar value o.choices).elim [] (tip "value")
  | repeated o =>
    [.plain "the argument '", .invalid o.spelling, .plain "' cannot be used multiple times"]
  | conflict a b _ =>
    [.plain "the argument '", .invalid a.spelling, .plain "' cannot be used with '",
      .invalid b.spelling, .plain "'"]
  | unexpectedValue o value _ =>
    [.plain "unexpected value '", .invalid value, .plain "' for '", .literal o.spelling,
      .plain "' found; no more were expected"]
  | notText => [.plain "invalid UTF-8 was detected in one or more arguments"]

/-- What the usage line lists, if the message has one. -/
def usage? : Refusal → Option Usage
  | unknown _ _ usage | conflict _ _ usage => some (.options usage)
  | unexpectedValue o _ [] => some (.options [o])
  -- where settings are given already, all of them are listed, the refused one among them
  | unexpectedValue o _ _ => some (.anySetting ([o].filter (· ∉ Opt.settings)))
  | repeated _ | notText => some (.options [])
  | missingValue _ | invalidChoice _ _ => none

/-- The message of a refusal, for the name that the program was called by. -/
def message (name : String) (r : Refusal) : Styled :=
  [.error "error:", .plain " "] ++ r.complaint ++
    r.usage?.elim [] (fun usage => .plain "\n\n" :: usage.line name) ++
    [.plain "\n\nFor more information, try '", .literal "--help", .plain "'.\n"]

end Refusal

/-! ## Answers -/

namespace Halt

/-- The text that answers the command line. -/
def text (name : String) : Halt → Styled
  | help full => Help.text full name
  | version => [.plain (programName ++ " " ++ programVersion ++ "\n")]
  | refused r => r.message name

/-- Is the answer an error? Then it goes to standard error. -/
def isError : Halt → Bool
  | refused _ => true
  | help _ | version => false

def code (h : Halt) : UInt8 := if h.isError then 2 else 0

end Halt

end LastMatch
