import LastMatch.Text.Utf8

/-!
# Words in complaints

How a utility shows a word that it complains about.

* `Shown.word` is the form of file names. A name stands as it is where a shell would read it back
  as one word, and else in quotation marks: in double ones if only blanks and apostrophes are
  special in it, and else in single ones, with its apostrophes outside of them and its unprintable
  bytes as escapes in `$'...'`.
* `Shown.escaped` is the form of other words: in single quotation marks, with backslash escapes.
-/

namespace LastMatch.Shown

def apostrophe : UInt8 := '\''.toUInt8

/-! ## Bytes -/

def isPrintable (b : UInt8) : Bool := 0x20 ≤ b && b ≤ 0x7E

/-- The characters that make a word need quotation marks wherever they stand. -/
def specials : List Char :=
  [' ', '!', '"', '$', '&', '\'', '(', ')', '*', ':', ';', '<', '=', '>', '?', '[', '\\', '^', '`',
   '|']

/-- Does the byte make a word need quotation marks wherever it stands? -/
def isSpecial (b : UInt8) : Bool := !isPrintable b || Char.ofUInt8 b ∈ specials

/-- Does the byte make a word need quotation marks if it stands first? -/
def isSpecialFirst (b : UInt8) : Bool := Char.ofUInt8 b ∈ ['#', '~']

/-- Does the byte mean the same in double quotation marks as in single ones? -/
def isMild (b : UInt8) : Bool :=
  let c := Char.ofUInt8 b
  c.isAlphanum || c ∈ [' ', '%', '\'', '+', ',', '-', '.', '/', ':', ']', '_']

/-- An unprintable byte as an escape: by its letter, or else by three octal digits. -/
def escape (b : UInt8) : Bytes :=
  let digit (n : UInt8) : UInt8 := '0'.toUInt8 + n % 8
  let letter? : Option Char :=
    [(7, 'a'), (8, 'b'), (9, 't'), (10, 'n'), (11, 'v'), (12, 'f'), (13, 'r')].lookup b.toNat
  '\\'.toUInt8 ::
    match letter? with
    | some c => [c.toUInt8]
    | none => [digit (b / 64), digit (b / 8), digit b]

/-! ## File names -/

/-- Is the word read back as it is? A brace is special where it is the whole word. -/
def isPlain (w : Bytes) : Bool :=
  match w with
  | [] => false
  | [b] => !isSpecial b && !isSpecialFirst b && Char.ofUInt8 b ∉ ['\x7b', '\x7d']
  | b :: _ => !isSpecialFirst b && !w.any isSpecial

def isMildWord : Bytes → Bool
  | [] => true
  | b :: rest => (isMild b || isSpecialFirst b) && rest.all isMild

/-- A word while it is quoted: the pieces written, last first, and whether `$'...'` is open. -/
structure Quoting where
  pieces : List Bytes
  escaping : Bool

def Quoting.step (q : Quoting) (b : UInt8) : Quoting :=
  let reopen := if q.escaping then [apostrophe, apostrophe] else []
  let dollar := if q.escaping then [] else Utf8.encode "'$'"
  if b = apostrophe then ⟨Utf8.encode "'\\''" :: q.pieces, false⟩
  else if isPrintable b then ⟨[b] :: reopen :: q.pieces, false⟩
  else ⟨escape b :: dollar :: q.pieces, true⟩

def inSingle (w : Bytes) : Bytes :=
  apostrophe :: (w.foldl Quoting.step ⟨[], false⟩).pieces.reverse.flatten ++ [apostrophe]

/-- A file name as complaints show it. -/
def word (w : Bytes) : Bytes :=
  if isPlain w then w
  else if apostrophe ∈ w ∧ isMildWord w then '"'.toUInt8 :: w ++ ['"'.toUInt8]
  else inSingle w

/-! ## Other words -/

/-- A word in single quotation marks, with what would end them or is unprintable as escapes. -/
def escaped (w : Bytes) : Bytes :=
  let backslash := '\\'.toUInt8
  let shown (b : UInt8) : Bytes :=
    if b = apostrophe ∨ b = backslash then [backslash, b]
    else if isPrintable b then [b] else escape b
  apostrophe :: w.flatMap shown ++ [apostrophe]

end LastMatch.Shown
