import LastMatch.Text.Utf8

/-!
# Backslash escapes

The escapes that the commands `echo` and `printf` replace in their arguments.
-/

namespace LastMatch.Escape

/-- How an octal escape is written that starts with a zero. Without one it has one to three digits
right after the backslash. -/
inductive Octal where
  /-- The zero stands before up to three digits. -/
  | afterZero
  /-- The zero is itself one of up to three digits. -/
  | direct
  deriving DecidableEq

inductive Meaning where
  /-- Some bytes, in place of the backslash and so many bytes after it. -/
  | bytes (bs : Bytes) (length : Nat)
  | stop

def digitValue? (b : UInt8) : Option Nat :=
  let c := Char.ofUInt8 b
  if c.isDigit then some (b.toNat - 48)
  else if 'a' ≤ c ∧ c ≤ 'f' then some (b.toNat - 87)
  else if 'A' ≤ c ∧ c ≤ 'F' then some (b.toNat - 55)
  else none

/-- The digits below `base` at the start of some bytes, at most `limit` of them. -/
def digits (base limit : Nat) (bs : Bytes) : List Nat :=
  ((bs.take limit).map digitValue?).takeWhile (fun d => d.any (· < base)) |>.filterMap id

/-- The byte with these digits. What does not fit in a byte is lost. -/
def byteOf (base : Nat) (ds : List Nat) : UInt8 :=
  UInt8.ofNat (ds.foldl (fun n d => n * base + d) 0)

/-- The meaning of what follows a backslash. A backslash before anything else stands for itself. -/
def meaning (octal : Octal) (rest : Bytes) : Meaning :=
  match rest with
  | [] => .bytes ['\\'.toUInt8] 0
  | b :: after =>
    match Char.ofUInt8 b with
    | '\\' => .bytes ['\\'.toUInt8] 1
    | 'a' => .bytes [7] 1
    | 'b' => .bytes [8] 1
    | 'c' => .stop
    | 'e' => .bytes [27] 1
    | 'f' => .bytes [12] 1
    | 'n' => .bytes [10] 1
    | 'r' => .bytes [13] 1
    | 't' => .bytes [9] 1
    | 'v' => .bytes [11] 1
    | 'x' =>
      match digits 16 2 after with
      | [] => .bytes ['\\'.toUInt8, b] 1
      | ds => .bytes [byteOf 16 ds] (1 + ds.length)
    | '0' =>
      let ds := match octal with
        | .afterZero => digits 8 3 after
        | .direct => digits 8 2 after
      .bytes [byteOf 8 ds] (1 + ds.length)
    | _ =>
      match digits 8 3 rest with
      | [] => .bytes ['\\'.toUInt8, b] 1
      | ds => .bytes [byteOf 8 ds] ds.length

/-- Some bytes with the escapes replaced, and whether one of them ends all output. `skip` bytes
belong to the escape before them. The output so far is held last byte first. -/
def expandFrom (octal : Octal) : Nat → Bytes → Bytes → Bytes × Bool
  | _, out, [] => (out.reverse, false)
  | skip + 1, out, _ :: rest => expandFrom octal skip out rest
  | 0, out, b :: rest =>
    if b = '\\'.toUInt8 then
      match meaning octal rest with
      | .stop => (out.reverse, true)
      | .bytes bs length => expandFrom octal length (bs.reverse ++ out) rest
    else expandFrom octal 0 (b :: out) rest

def expand (octal : Octal) (bs : Bytes) : Bytes × Bool := expandFrom octal 0 [] bs

end LastMatch.Escape
