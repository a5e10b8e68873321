import LastMatch.Host.Printf

/-!
# Standard utilities

The utilities that an editor command may name: `true`, `false`, `echo`, `printf` and `cat`. Standard
input is always at its end, and no file exists that could be shown.
-/

namespace LastMatch

inductive Utility where
  /-- `true` -/
  | succeed
  /-- `false` -/
  | fail
  | echo
  | printf
  | cat
  deriving DecidableEq, Repr

namespace Utility

def all : List Utility := [succeed, fail, echo, printf, cat]

def name : Utility → String
  | succeed => "true"
  | fail => "false"
  | echo => "echo"
  | printf => "printf"
  | cat => "cat"

def ofName? (name : Bytes) : Option Utility := all.find? fun u => Utf8.encode u.name = name

def silent (code : UInt8) : Outcome := ⟨code, [], []⟩

/-! ## echo -/

/-- How `echo` writes: without the newline, with escapes replaced. -/
structure EchoStyle where
  bare : Bool
  escapes : Bool

/-- Sets the switches that the letters stand for. -/
def EchoStyle.set (s : EchoStyle) (letters : Bytes) : EchoStyle :=
  letters.foldl
    (fun s b =>
      if b = 'n'.toUInt8 then { s with bare := true } else { s with escapes := b = 'e'.toUInt8 })
    s

/-- Does the argument hold switches only? -/
def isSwitch (arg : Bytes) : Bool :=
  match arg with
  | a :: b :: rest =>
    a = '-'.toUInt8 && (b :: rest).all fun c => Char.ofUInt8 c ∈ ['n', 'e', 'E']
  | _ => false

/-- Writes the arguments with a space between two, and a newline. -/
def echoWith (style : EchoStyle) (args : List Bytes) : Outcome :=
  let text := [' '.toUInt8].intercalate args
  let (text, ended) := if style.escapes then Escape.expand .afterZero text else (text, false)
  ⟨0, if style.bare || ended then text else text ++ ['\n'.toUInt8], []⟩

def runEcho (args : List Bytes) : Outcome :=
  let style := (args.takeWhile isSwitch).foldl (fun s a => s.set (a.drop 1)) ⟨false, false⟩
  echoWith style (args.dropWhile isSwitch)

/-! ## printf -/

/-- Runs `printf`, called by a name. The first argument is the format. -/
def runPrintf (called : Bytes) : List Bytes → Outcome
  | format :: args => Printf.run called format args
  | [] =>
    { code := 1
      stdout := []
      stderr := called ++ Utf8.encode ": missing operand\nTry '" ++ called ++
        Utf8.encode " --help' for more information.\n" }

/-! ## cat -/

/-- Runs `cat`, called by a name. Standard input, which is called `-`, gives nothing. -/
def runCat (called : Bytes) (args : List Bytes) : Outcome :=
  let missing := args.filter (· ≠ ['-'.toUInt8])
  { code := if missing.isEmpty then 0 else 1
    stdout := []
    stderr := missing.flatMap fun f =>
      called ++ Utf8.encode ": " ++ Shown.word f ++ Utf8.encode ": No such file or directory\n" }

/-- Runs a utility with its arguments. Its complaints begin with the name that it was called by. -/
def run (u : Utility) (called : Bytes) (args : List Bytes) : Outcome :=
  match u with
  | succeed => silent 0
  | fail => silent 1
  | echo => runEcho args
  | printf => runPrintf called args
  | cat => runCat called args

end Utility

end LastMatch
