import LastMatch.Host.Utility

/-!
# Shell scripts

The part of the shell language that editor commands such as `sh -c 'echo "$1"; exit 7'` use: simple
commands joined by `;`, a newline, `&&` or `||`; quotation marks and backslashes; the parameters of
the script; and output turned to standard error by `>&2`. Anything else is a syntax error.
-/

namespace LastMatch.Script

/-! ## Tokens -/

inductive Param where
  /-- `$0` and so on. -/
  | position (n : Nat)
  /-- `$#`, the number of arguments. -/
  | count
  /-- `$@` or `$*`, all arguments. -/
  | all
  /-- `$?`, the exit code of the last command. -/
  | status
  deriving DecidableEq, Repr

/-- A part of a word. The value of a parameter that is not quoted is cut at blanks. -/
inductive Part where
  | text (bs : Bytes)
  | param (p : Param) (quoted : Bool)
  deriving DecidableEq, Repr

/-- How a command hangs on the one before it. -/
inductive Joint where
  | always
  | onSuccess
  | onFailure
  deriving DecidableEq, Repr

inductive Token where
  /-- A word and the line on which it ends. -/
  | word (parts : List Part) (line : Nat)
  | joint (j : Joint)
  /-- `>&2` -/
  | toStderr
  deriving DecidableEq, Repr

inductive Quotes where
  | none
  | single
  | double
  deriving DecidableEq, Repr

/-- A place in a script: the tokens so far and the parts of the word that has begun, both last
first; the open quotation marks; how many bytes belong to what was read last; and the line. -/
structure Lexer where
  tokens : List Token
  word : Option (List Part)
  quotes : Quotes
  skip : Nat
  line : Nat

namespace Lexer

def close (s : Lexer) : Lexer :=
  match s.word with
  | none => s
  | some parts => { s with tokens := .word parts.reverse s.line :: s.tokens, word := none }

/-- Adds a part to the word, and passes over some bytes. -/
def add (s : Lexer) (p : Part) (skip : Nat) : Lexer :=
  { s with word := some (p :: s.word.getD []), skip }

/-- Ends the word and adds a token, and passes over some bytes. -/
def token (s : Lexer) (t : Token) (skip : Nat) : Lexer :=
  { s.close with tokens := t :: s.close.tokens, skip }

/-- Begins a word if none has begun, and changes the open quotation marks. -/
def turn (s : Lexer) (q : Quotes) : Lexer := { s with word := some (s.word.getD []), quotes := q }

/-- Counts the byte that has been read, if it ends a line. -/
def count (s : Lexer) (b : UInt8) : Lexer :=
  if b = '\n'.toUInt8 then { s with line := s.line + 1 } else s

end Lexer

/-- The parameter named after a dollar sign, and the length of its name. -/
def param? (rest : Bytes) : Option (Param × Nat) :=
  match (rest.take 2).map Char.ofUInt8 with
  | '#' :: _ => some (.count, 1)
  | '@' :: _ | '*' :: _ => some (.all, 1)
  | '?' :: _ => some (.status, 1)
  | c :: _ => if c.isDigit then some (.position (c.toNat - 48), 1) else none
  | [] => none

/-- The letters that start a construct which is not supported, where they are not quoted. -/
def isForeign (c : Char) : Bool := c ∈ ['`', '(', ')', '<', '>', '&', '|']

/-- Reads a byte outside quotation marks, with a view of those after it. -/
def bare (s : Lexer) (b : UInt8) (rest : Bytes) : Option Lexer :=
  match Char.ofUInt8 b, (rest.take 2).map Char.ofUInt8 with
  | ' ', _ | '\t', _ => some s.close
  | '\n', _ | ';', _ => some (s.token (.joint .always) 0)
  | '&', '&' :: _ => some (s.token (.joint .onSuccess) 1)
  | '|', '|' :: _ => some (s.token (.joint .onFailure) 1)
  | '>', '&' :: '2' :: _ => some (s.token .toStderr 2)
  | '\'', _ => some (s.turn .single)
  | '"', _ => some (s.turn .double)
  | '\\', [] => none
  | '\\', '\n' :: _ => some { s with skip := 1 }
  | '\\', _ => some (s.add (.text (rest.take 1)) 1)
  | '$', _ =>
    match param? rest with
    | some (p, length) => some (s.add (.param p false) length)
    | none => some (s.add (.text [b]) 0)
  | c, _ => if isForeign c then none else some (s.add (.text [b]) 0)

/-- Reads a byte in double quotation marks, with a view of those after it. -/
def inDouble (s : Lexer) (b : UInt8) (rest : Bytes) : Option Lexer :=
  match Char.ofUInt8 b, (rest.take 2).map Char.ofUInt8 with
  | '"', _ => some (s.turn .none)
  | '`', _ => none
  | '\\', '\n' :: _ => some { s with skip := 1 }
  | '\\', c :: _ =>
    if c ∈ ['$', '`', '"', '\\'] then some (s.add (.text (rest.take 1)) 1)
    else some (s.add (.text [b]) 0)
  | '$', _ =>
    match param? rest with
    | some (p, length) => some (s.add (.param p true) length)
    | none => some (s.add (.text [b]) 0)
  | _, _ => some (s.add (.text [b]) 0)

def tokensFrom (s : Lexer) : Bytes → Option (List Token)
  | [] => if s.quotes = .none then some s.close.tokens.reverse else none
  | b :: rest =>
    match s.skip, s.quotes with
    | n + 1, _ => tokensFrom ({ s with skip := n }.count b) rest
    | 0, .none => (bare s b rest).bind fun s => tokensFrom (s.count b) rest
    | 0, .double => (inDouble s b rest).bind fun s => tokensFrom (s.count b) rest
    | 0, .single =>
      let s := if b = '\''.toUInt8 then s.turn .none else s.add (.text [b]) 0
      tokensFrom (s.count b) rest

def tokens (script : Bytes) : Option (List Token) := tokensFrom ⟨[], none, .none, 0, 1⟩ script

/-! ## Commands -/

/-- A simple command, and the line of its first word. -/
structure SimpleCommand where
  joint : Joint
  words : List (List Part)
  toStderr : Bool
  line : Nat

/-- Cuts the tokens into commands. The commands before the current one are held last first. -/
def commandsFrom (done : List SimpleCommand) (current : SimpleCommand) :
    List Token → List SimpleCommand
  | [] => (current :: done).reverse
  | .word parts line :: rest =>
    let line := if current.words.isEmpty then line else current.line
    commandsFrom done { current with words := current.words ++ [parts], line } rest
  | .toStderr :: rest => commandsFrom done { current with toStderr := true } rest
  | .joint j :: rest =>
    -- a line may break between a joint and the command that it leads to
    if j = .always && current.words.isEmpty && !current.toStderr then
      commandsFrom done current rest
    else commandsFrom (current :: done) ⟨j, [], false, 1⟩ rest

def commands (ts : List Token) : List SimpleCommand := commandsFrom [] ⟨.always, [], false, 1⟩ ts

/-! ## Running -/

/-- A running script: its name and arguments, the exit code of the last command, what has been
written, and whether `exit` was called. `full` says that nothing can be written to standard
output. -/
structure Machine where
  full : Bool
  name : Bytes
  args : List Bytes
  status : UInt8
  stdout : Bytes
  stderr : Bytes
  ended : Bool

/-- The fields that a word gives: the complete ones, last first, and the one that has begun. -/
structure Fields where
  complete : List Bytes
  current : Option Bytes

namespace Fields

def add (f : Fields) (bs : Bytes) : Fields := { f with current := some (f.current.getD [] ++ bs) }

def close (f : Fields) : Fields := ⟨f.current.toList ++ f.complete, none⟩

/-- Adds a value that is not quoted: blanks end a field. -/
def addCut (f : Fields) (value : Bytes) : Fields :=
  value.foldl (fun f b => if Char.ofUInt8 b ∈ [' ', '\t', '\n'] then f.close else f.add [b]) f

/-- Adds several values as fields of their own: the first continues the current field. -/
def addAll (f : Fields) (add : Fields → Bytes → Fields) : List Bytes → Fields
  | [] => f
  | v :: vs => vs.foldl (fun f v => add f.close v) (add f v)

end Fields

namespace Machine

def values (m : Machine) : Param → List Bytes
  | .position 0 => [m.name]
  | .position (n + 1) => [m.args.getD n []]
  | .count => [Utf8.encode (toString m.args.length)]
  | .all => m.args
  | .status => [Utf8.encode (toString m.status)]

def expandPart (m : Machine) (f : Fields) : Part → Fields
  | .text bs => f.add bs
  | .param p true => f.addAll Fields.add (m.values p)
  | .param p false => f.addAll Fields.addCut (m.values p)

/-- The fields of a word. A word of nothing but empty quotation marks is an empty field. -/
def expand (m : Machine) (parts : List Part) : List Bytes :=
  let start : Fields := ⟨[], if parts.isEmpty then some [] else none⟩
  (parts.foldl m.expandPart start).close.complete.reverse

/-- A complaint of a script with this name about one of its lines. -/
def complaint (name : Bytes) (line : Nat) (bs : Bytes) : Bytes :=
  name ++ Utf8.encode (": " ++ toString line ++ ": ") ++ bs ++ ['\n'.toUInt8]

/-- The outcome of a command other than `exit`, on some line. The shell's own `echo` always
replaces escapes. -/
def outcome (m : Machine) (line : Nat) (command : Bytes) (args : List Bytes) : Outcome :=
  if command = Utf8.encode ":" then Utility.silent 0
  else
    match Utility.ofName? command with
    | some .echo =>
      if args.head? = some (Utf8.encode "-n") then Utility.echoWith ⟨true, true⟩ (args.drop 1)
      else Utility.echoWith ⟨false, true⟩ args
    | some u => u.run command args
    | none => ⟨127, [], complaint m.name line (command ++ Utf8.encode ": not found")⟩

/-- Takes in what a command wrote, or its failure to write. -/
def record (m : Machine) (line : Nat) (command : Bytes) (o : Outcome) (toStderr : Bool) :
    Machine :=
  let failed := m.full && !toStderr && !o.stdout.isEmpty
  let o : Outcome :=
    if failed then
      ⟨1, [], o.stderr ++ complaint m.name line
        (command ++ Utf8.encode ": " ++ command ++ Utf8.encode ": I/O error")⟩
    else o
  { m with
    status := o.code
    stdout := if toStderr then m.stdout else m.stdout ++ o.stdout
    stderr := m.stderr ++ (if toStderr then o.stdout else []) ++ o.stderr }

/-- Ends the script. The exit code is the argument's lowest byte. -/
def exit (m : Machine) (line : Nat) (args : List Bytes) : Machine :=
  match args with
  | [] => { m with ended := true }
  | arg :: _ =>
    if !arg.isEmpty && arg.all fun b => (Char.ofUInt8 b).isDigit then
      let n : Nat := arg.foldl (fun n b => n * 10 + (b.toNat - 48)) 0
      { m with status := UInt8.ofNat n, ended := true }
    else
      let o : Outcome :=
        ⟨2, [], complaint m.name line (Utf8.encode "exit: Illegal number: " ++ arg)⟩
      { m with status := o.code, stderr := m.stderr ++ o.stderr, ended := true }

/-- Runs a command, if the one before it lets it run. -/
def step (m : Machine) (c : SimpleCommand) : Machine :=
  let applies := match c.joint with
    | .always => true
    | .onSuccess => m.status = 0
    | .onFailure => m.status ≠ 0
  if m.ended || !applies then m
  else
    match c.words.flatMap m.expand with
    | [] => m
    | command :: args =>
      if command = Utf8.encode "exit" then m.exit c.line args
      else m.record c.line command (m.outcome c.line command args) c.toStderr

end Machine

/-- Runs a script with its name and its arguments, where standard output may be full. -/
def run (full : Bool) (script name : Bytes) (args : List Bytes) : Outcome :=
  match tokens script with
  | none => ⟨2, [], Machine.complaint name 1 (Utf8.encode "Syntax error")⟩
  | some ts =>
    let m := (commands ts).foldl Machine.step ⟨full, name, args, 0, [], [], false⟩
    ⟨m.status, m.stdout, m.stderr⟩

/-- Runs the shell, called by a name. After `-c` come a script, its name and its arguments.
Otherwise the first argument names a file to read, and there is none. -/
def runShell (full : Bool) (called : Bytes) (args : List Bytes) : Outcome :=
  match args with
  | [] => Utility.silent 0
  | first :: rest =>
    if first = Utf8.encode "-c" then
      match rest with
      | [] => ⟨2, [], called ++ Utf8.encode ": 0: -c requires an argument\n"⟩
      | [script] => run full script called []
      | script :: name :: args => run full script name args
    else
      { code := 2
        stdout := []
        stderr := called ++ Utf8.encode ": 0: cannot open " ++ first ++
          Utf8.encode ": No such file\n" }

end LastMatch.Script
