import LastMatch.Options.Table

/-!
# How the reading of options can end early

Reading stops at a request for help or for the version, or at the first word that is refused. A
refusal names its cause, and the options that its usage line depends on are part of it.
-/

namespace LastMatch

/-- Why the command line is refused. Words are held as messages show them. -/
inductive Refusal where
  /-- A word, or a letter in a word, that is no option. -/
  | unknown (word : String) (similar : Option Opt) (usage : List Opt)
  /-- An option at the end of the line, or before another option, that lacks its value. -/
  | missingValue (o : Opt)
  /-- A value that the option does not offer. -/
  | invalidChoice (o : Opt) (value : String)
  | repeated (o : Opt)
  /-- Two options that exclude each other, in the order given. -/
  | conflict (first second : Opt) (usage : List Opt)
  /-- A value for an option that takes none, after the options that already count as given. -/
  | unexpectedValue (o : Opt) (value : String) (given : List Opt)
  /-- A text was called for and the bytes are none. -/
  | notText
  deriving DecidableEq, Repr

/-- Why the reading of options ended early. -/
inductive Halt where
  /-- Help was asked for, in short or in full. -/
  | help (full : Bool)
  | version
  | refused (r : Refusal)
  deriving DecidableEq, Repr

end LastMatch
