import LastMatch.Options.Refusal
import LastMatch.Text.Similarity
import LastMatch.Text.Utf8

/-!
# Reading the command line

The words of the command line are read from left to right into a `Reading`, and reading stops at
the first word that is refused (`Except`). Only two checks wait for the end: whether options
exclude each other, and whether the variable that stands in for the editor is a text.

An option that takes its value from the next word is *open* until the next word that is no value.
Its value is looked at only then: an open option is closed before another option counts. If the
other word is refused anyway, that is what is reported, whatever is wrong with the open option; the
open option then matters only for the usage line.
-/

namespace LastMatch

/-- What the command line asks for. -/
structure Request where
  editor : Option String
  print : Bool
  dryRun : Bool
  quiet : Bool
  completions : Option Shell
  deriving DecidableEq, Repr

/-! ## Words -/

/-- The kinds of words on a command line, before any option is looked up. -/
inductive Word where
  /-- Two hyphens: all words after it are arguments. -/
  | endOfOptions
  /-- A long name after two hyphens, perhaps with a value behind the first `=`. -/
  | long (name : Bytes) (value : Option Bytes)
  | letters (ls : Bytes)
  /-- Any other word, a lone hyphen included. -/
  | plain (w : Bytes)
  deriving DecidableEq, Repr

namespace Word

def hyphen : UInt8 := '-'.toUInt8

def equals : UInt8 := '='.toUInt8

def ofLong (body : Bytes) : Word :=
  match body.dropWhile (· ≠ equals) with
  | [] => long body none
  | _ :: value => long (body.takeWhile (· ≠ equals)) (some value)

def ofBytes (w : Bytes) : Word :=
  match w with
  | a :: b :: rest =>
    if a ≠ hyphen then plain w
    else if b ≠ hyphen then letters (b :: rest)
    else if rest.isEmpty then endOfOptions
    else ofLong rest
  | _ => plain w

end Word

/-! ## The state of the reading -/

/-- How far the command line has been read. -/
structure Reading where
  /-- The options that count as given, in order. -/
  given : List Opt
  /-- The option that is open, and its value if there was one. -/
  opened : Option (Opt × Option Bytes)
  editor : Option String
  completions : Option Shell
  ended : Bool
  deriving DecidableEq, Repr

namespace Reading

def start : Reading := ⟨[], none, none, none, false⟩

/-! ### Giving an option

The functions here return the state together with a refusal, if there is one, because the state also
matters where the refusal is not what will be reported.
-/

/-- Counts an option as given. The second time is refused, and then it counts as not given. -/
def give (r : Reading) (o : Opt) : Reading × Option Refusal :=
  if o ∈ r.given then ({ r with given := r.given.erase o }, some (.repeated o))
  else ({ r with given := r.given ++ [o] }, none)

/-- Takes note of the value of an option. Where only some values are offered, the empty value
counts as none. -/
def store (r : Reading) (o : Opt) (value : Bytes) : Reading × Option Refusal :=
  match o with
  | .completions =>
    match (Utf8.decode? value).bind Shell.ofName? with
    | some s => ({ r with completions := some s }, none)
    | none =>
      if value.isEmpty then (r, some (.missingValue o))
      else (r, some (.invalidChoice o (Utf8.decodeLossy value)))
  | _ =>
    match Utf8.decode? value with
    | some text => ({ r with editor := some text }, none)
    | none => (r, some .notText)

def assign (r : Reading) (o : Opt) (value : Bytes) : Reading × Option Refusal :=
  match r.give o with
  | (r, none) => r.store o value
  | refused => refused

def close (r : Reading) : Reading × Option Refusal :=
  match r.opened with
  | none => (r, none)
  | some (o, none) => ({ r with opened := none }, some (.missingValue o))
  | some (o, some value) => { r with opened := none }.assign o value

/-! ### Words that count -/

/-- The state, unless there is a refusal. -/
def accept : Reading × Option Refusal → Except Halt Reading
  | (r, none) => .ok r
  | (_, some refusal) => .error (.refused refusal)

/-- Gives an option that takes no value. Help and the version are asked for at once. -/
def flag (r : Reading) (o : Opt) (fullHelp : Bool) : Except Halt Reading := do
  let r ← accept r.close
  match o with
  | .help => .error (.help fullHelp)
  | .version => .error .version
  | _ => accept (r.give o)

/-- Gives an option with the value that stands in the same word. -/
def attached (r : Reading) (o : Opt) (value : Bytes) : Except Halt Reading := do
  let r ← accept r.close
  accept (r.assign o value)

/-- Opens an option, for the next word to be its value. -/
def openOption (r : Reading) (o : Opt) : Except Halt Reading := do
  let r ← accept r.close
  .ok { r with opened := some (o, none) }

/-! ### Words that are refused -/

/-- Adds an option to a usage line that does not list it yet. -/
def listed (usage : List Opt) (o : Opt) : List Opt := if o ∈ usage then usage else usage ++ [o]

/-- Refuses a word that is no option, or a letter that is none. -/
def unknown (word : String) : Except Halt Reading := .error (.refused (.unknown word none []))

/-- Refuses a long name that no option has, and proposes the most similar one. -/
def unknownLong (r : Reading) (name : String) : Except Halt Reading :=
  let similar := (Text.mostSimilar name (Opt.all.map Opt.long)).bind Opt.ofLong?
  -- the open option counts here, unless it is refused itself
  let given := r.close.1.given
  let usage := match similar with
    | some o => listed given o
    | none => given
  .error (.refused (.unknown ("--" ++ name) similar usage))

/-- Refuses a value for an option that takes none. -/
def unexpectedValue (r : Reading) (o : Opt) (value : Bytes) : Except Halt Reading :=
  -- here the open option does not count
  .error (.refused (.unexpectedValue o (Utf8.decodeLossy value) r.given))

/-! ### Reading -/

/-- Reads a long name, with its value if it has one. -/
def long (r : Reading) (name : Bytes) (value : Option Bytes) : Except Halt Reading :=
  match (Utf8.decode? name).bind Opt.ofLong?, value with
  | none, _ => r.unknownLong (Utf8.decodeLossy name)
  | some o, none => if o.takesValue then r.openOption o else r.flag o true
  | some o, some v => if o.takesValue then r.attached o v else r.unexpectedValue o v

/-- Reads the letters of a word. A letter that takes a value takes the rest of the word, less one
`=` before it, or else the next word. -/
def letters (r : Reading) : Bytes → Except Halt Reading
  | [] => .ok r
  | b :: rest =>
    match Opt.ofLetter? (Char.ofUInt8 b) with
    | none =>
      -- one character is named, or all that is left where no character can be read
      match Utf8.firstChar? (b :: rest) with
      | some c => unknown (String.ofList ['-', c])
      | none => unknown ("-" ++ Utf8.decodeLossy (b :: rest))
    | some o =>
      if o.takesValue then
        match rest with
        | [] => r.openOption o
        | v :: value => r.attached o (if v = Word.equals then value else rest)
      else do
        let r ← r.flag o false
        r.letters rest

/-- Reads a word that is no option: it is the value of an option that waits for one, or refused. -/
def plain (r : Reading) (w : Bytes) : Except Halt Reading :=
  match r.opened with
  | some (o, none) => .ok { r with opened := some (o, some w) }
  | _ => unknown (Utf8.decodeLossy w)

def step (r : Reading) (w : Bytes) : Except Halt Reading :=
  if r.ended then unknown (Utf8.decodeLossy w)
  else
    match Word.ofBytes w with
    | .endOfOptions => .ok { r with ended := true }
    | .long name value => r.long name value
    | .letters ls => r.letters ls
    | .plain w => r.plain w

/-! ### The end of the command line -/

/-- Lets the variable stand in for an editor that was not given. -/
def fallBack (r : Reading) (inherited : Option Bytes) : Except Halt Reading :=
  match inherited with
  | some value => if .editor ∈ r.given then .ok r else accept (r.assign .editor value)
  | none => .ok r

/-- The first two given options that exclude each other, in the order given. -/
def conflict? (r : Reading) : Option (Opt × Opt) :=
  let clash (a b : Opt) : Bool := a.excludes? = some b || b.excludes? = some a
  r.given.findSome? fun a => (r.given.find? (clash a)).map fun b => (a, b)

/-- What the command line asks for, now that all of it is read. -/
def finish (r : Reading) (inherited : Option Bytes) : Except Halt Request := do
  let r ← accept r.close
  let r ← r.fallBack inherited
  match r.conflict? with
  | some (a, b) => .error (.refused (.conflict a b (r.given.filter (· ≠ b))))
  | none =>
    .ok {
      editor := r.editor
      print := .print ∈ r.given
      dryRun := .dryRun ∈ r.given
      quiet := .quiet ∈ r.given
      completions := r.completions }

end Reading

/-- Reads a command line, of which the first word is the name that the program was called by.
`inherited` is the value of the variable that stands in for the editor option. -/
def Request.parse (commandLine : List Bytes) (inherited : Option Bytes) : Except Halt Request := do
  let r ← (commandLine.drop 1).foldlM Reading.step Reading.start
  r.finish inherited

end LastMatch
