/-!
# Letters of a command line

A command line is split by the part that each of its letters plays. `Symbol` lists the parts, and
`Symbol.ofCode` gives the part of a code point. Bytes and characters are both read through this one
table: only ASCII has special letters, so every byte of a character outside ASCII is plain, as the
character is.
-/

namespace LastMatch.Words

/-- The part that a letter plays in a command line. -/
inductive Symbol where
  /-- A space or a tab. -/
  | blank
  | newline
  /-- `#`, which starts a comment where a word would start. -/
  | hash
  | backslash
  | apostrophe
  | quote
  /-- `$` or a backquote: like the two before, a backslash in double quotes can stand before it. -/
  | dollar
  /-- Any other letter. -/
  | plain
  deriving DecidableEq, Repr

namespace Symbol

/-- The part that a code point plays. -/
def ofCode : Nat → Symbol
  | 0x20 | 0x09 => .blank
  | 0x0A => .newline
  | 0x23 => .hash
  | 0x5C => .backslash
  | 0x27 => .apostrophe
  | 0x22 => .quote
  | 0x24 | 0x60 => .dollar
  | _ => .plain

def ofByte (b : UInt8) : Symbol := ofCode b.toNat

def ofChar (c : Char) : Symbol := ofCode c.toNat

/-- Does a backslash in double quotes quote the letter? -/
def isGuarded : Symbol → Bool
  | .dollar | .quote | .backslash => true
  | _ => false

theorem ofCode_eq_plain {n : Nat} (h : 0x80 ≤ n) : ofCode n = .plain := by
  unfold ofCode
  split
  case h_10 => rfl
  all_goals omega

end Symbol

end LastMatch.Words
