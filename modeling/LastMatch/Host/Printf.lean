import LastMatch.Host.Escape
import LastMatch.Host.Shown
import LastMatch.Launch

/-!
# The command `printf`

A format is read into parts. It is used again and again until all arguments are used up.
-/

namespace LastMatch.Printf

inductive Conversion where
  | string
  | escaped
  /-- Its first byte, or a NUL if it is empty. -/
  | char
  | number
  deriving DecidableEq

inductive Part where
  | text (bs : Bytes)
  | argument (c : Conversion)
  | stop
  /-- A percent sign that starts no conversion, with what follows it. -/
  | invalid (spec : Bytes)
  deriving DecidableEq

def conversion? (c : Char) : Option Conversion :=
  match c with
  | 's' => some .string
  | 'b' => some .escaped
  | 'c' => some .char
  | 'd' | 'i' => some .number
  | _ => none

/-- The part that a percent sign starts, and the number of bytes that belong to it. -/
def percent (rest : Bytes) : Part × Nat :=
  match rest with
  | [] => (.invalid ['%'.toUInt8], 0)
  | b :: _ =>
    if b = '%'.toUInt8 then (.text [b], 1)
    else
      match conversion? (Char.ofUInt8 b) with
      | some c => (.argument c, 1)
      | none => (.invalid ['%'.toUInt8, b], 1)

/-- The parts of a format. `skip` bytes belong to the part before them; the parts so far are held
last first. -/
def partsFrom : Nat → List Part → Bytes → List Part
  | _, parts, [] => parts.reverse
  | skip + 1, parts, _ :: rest => partsFrom skip parts rest
  | 0, parts, b :: rest =>
    if b = '%'.toUInt8 then
      let (part, length) := percent rest
      partsFrom length (part :: parts) rest
    else if b = '\\'.toUInt8 then
      match Escape.meaning .direct rest with
      | .stop => (.stop :: parts).reverse
      | .bytes bs length => partsFrom length (.text bs :: parts) rest
    else partsFrom 0 (.text [b] :: parts) rest

/-- What has been written so far, in pieces, last first; the complaints, last first; and the
exit code, once output has ended. -/
structure Progress where
  written : List Bytes
  complaints : List Bytes
  ended : Option UInt8

/-- An argument as a number: the number that it starts with, and whether that is all of it. -/
def numberOf (arg : Bytes) : Int × Bool :=
  let (sign, body) := match arg with
    | b :: rest =>
      if b = '-'.toUInt8 then ((-1 : Int), rest)
      else if b = '+'.toUInt8 then (1, rest) else (1, arg)
    | [] => (1, [])
  let isDigit (b : UInt8) : Bool := (Char.ofUInt8 b).isDigit
  let value : Nat := (body.takeWhile isDigit).foldl (fun n b => n * 10 + (b.toNat - 48)) 0
  (sign * (value : Int), arg.isEmpty || (!body.isEmpty && body.all isDigit))

def numberComplaint (arg : Bytes) : Bytes :=
  let startsWithDigit := arg.head?.any fun b => (Char.ofUInt8 b).isDigit
  Shown.escaped arg ++
    Utf8.encode (if startsWithDigit then ": value not completely converted"
      else ": expected a numeric value")

namespace Progress

def write (p : Progress) (bs : Bytes) : Progress := { p with written := bs :: p.written }

/-- Makes a complaint. The command goes on, and fails at its end. -/
def complain (p : Progress) (bs : Bytes) : Progress := { p with complaints := bs :: p.complaints }

/-- Writes an argument. A missing one counts as empty, and as zero. -/
def convert (p : Progress) (c : Conversion) (arg : Option Bytes) : Progress :=
  let bs := arg.getD []
  match c with
  | .string => p.write bs
  | .char => p.write [bs.headD 0]
  | .escaped =>
    let (out, ended) := Escape.expand .afterZero bs
    { p.write out with ended := if ended then some 0 else none }
  | .number =>
    let (value, whole) := numberOf bs
    let p := p.write (Utf8.encode (toString value))
    if whole then p else p.complain (numberComplaint bs)

end Progress

/-- Goes once through the parts of a format. Returns the arguments that are left. -/
def once : Progress → List Part → List Bytes → Progress × List Bytes
  | p, [], args => (p, args)
  | p, part :: parts, args =>
    if p.ended.isSome then (p, args)
    else
      match part with
      | .text bs => once (p.write bs) parts args
      | .argument c => once (p.convert c args.head?) parts args.tail
      | .stop => ({ p with ended := some 0 }, args)
      | .invalid spec =>
        (({ p with ended := some 1 } : Progress).complain
          (spec ++ Utf8.encode ": invalid conversion specification"), args)

/-- Goes through the format until no arguments are left, at most so many times. -/
def repeated (parts : List Part) : Nat → Progress → List Bytes → Progress
  | 0, p, _ => p
  | fuel + 1, p, args =>
    -- a round takes at least one argument if the format has a conversion
    let (p, left) := once p parts args
    if left.isEmpty || p.ended.isSome then p else repeated parts fuel p left

/-- Runs the command, called by a name, which complaints begin with. A format without conversions
leaves all arguments over, which is remarked on but is no fault. -/
def run (name format : Bytes) (args : List Bytes) : Outcome :=
  let parts := partsFrom 0 [] format
  let takesArguments := parts.any fun | .argument _ => true | _ => false
  let p := repeated parts (if takesArguments then args.length + 1 else 1) ⟨[], [], none⟩ args
  let remark := match args with
    | a :: _ =>
      if takesArguments || p.ended.isSome then []
      else [Utf8.encode "warning: ignoring excess arguments, starting with " ++ Shown.escaped a]
    | [] => []
  { code := p.ended.getD (if p.complaints.isEmpty then 0 else 1)
    stdout := p.written.reverse.flatten
    stderr := (p.complaints.reverse ++ remark).flatMap fun c =>
      name ++ Utf8.encode ": " ++ c ++ ['\n'.toUInt8] }

end LastMatch.Printf
