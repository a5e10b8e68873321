import LastMatch.Text.Utf8

/-!
# Quoting words for a command line

The inverse direction of splitting: a word is written so that a shell reads it back as it is.

A word is cut into chunks, each written in one style: unquoted, in single or in double quotes. The
cut is greedy: a chunk goes on as long as one style holds all its bytes, and is then written in the
first such style. Each style holds only bytes that mean nothing special in it, also to a shell with
history expansion: that is why `!` is never in double quotes, and why a `^` stands only at the start
of a chunk, and then in single quotes.
-/

namespace LastMatch.Words

/-- How a chunk of a word is written. -/
inductive Style where
  | unquoted
  | single
  | double
  deriving DecidableEq, Repr

namespace Style

/-- The styles, in order of preference. -/
def all : List Style := [.unquoted, .single, .double]

/-- May the byte stand in a chunk of this style? -/
def holds (s : Style) (b : UInt8) : Bool :=
  let c := Char.ofUInt8 b
  match s with
  | .unquoted => c.isAlphanum || c ∈ ['+', '-', '.', '/', ':', '@', ']', '_']
  | .single => c ∉ ['\'', '^', '\\']
  | .double => c ∉ ['`', '$', '!', '^']

/-- The styles in which a chunk can start with the byte. A `^` is safe only right after an opening
single quotation mark. -/
def opening (b : UInt8) : List Style :=
  if b = '^'.toUInt8 then [.single] else all.filter (·.holds b)

end Style

/-- A part of a word and the style it is written in. -/
structure Chunk where
  style : Style
  bytes : Bytes
  deriving DecidableEq, Repr

namespace Chunk

/-- A byte as it stands between double quotation marks. -/
def guarded (b : UInt8) : Bytes :=
  if b = '"'.toUInt8 ∨ b = '\\'.toUInt8 then ['\\'.toUInt8, b] else [b]

/-- The chunk as it stands in a command line. -/
def write (c : Chunk) : Bytes :=
  match c.style with
  | .unquoted => c.bytes
  | .single => '\''.toUInt8 :: c.bytes ++ ['\''.toUInt8]
  | .double => '"'.toUInt8 :: c.bytes.flatMap guarded ++ ['"'.toUInt8]

end Chunk

/-- A word while it is cut: the finished chunks, last first, the bytes of the chunk that is growing,
last first, and the styles that hold all of them. -/
structure Cutter where
  finished : List Chunk
  growing : Bytes
  styles : List Style
  deriving DecidableEq, Repr

namespace Cutter

/-- The chunks with the growing one finished. -/
def close (k : Cutter) : List Chunk :=
  match k.growing with
  | [] => k.finished
  | bs => ⟨k.styles.headD .double, bs.reverse⟩ :: k.finished

/-- Adds a byte to the growing chunk, or starts a new chunk with it where no style would be left. -/
def step (k : Cutter) (b : UInt8) : Cutter :=
  match k.growing, k.styles.filter (·.holds b) with
  -- nothing has grown yet: this is the first byte of the word
  | [], _ => ⟨k.finished, [b], Style.opening b⟩
  | _, [] => ⟨k.close, [b], Style.opening b⟩
  | bs, left => ⟨k.finished, b :: bs, left⟩

end Cutter

def chunks (w : Bytes) : List Chunk := (w.foldl Cutter.step ⟨[], [], []⟩).close.reverse

/-- A word as it stands in a command line. The empty word is a pair of single quotation marks. A
word with a NUL has no written form and stands as it is: nothing can be started with it. -/
def quote (w : Bytes) : Bytes :=
  if 0 ∈ w then w
  else if w.isEmpty then ['\''.toUInt8, '\''.toUInt8]
  else (chunks w).flatMap Chunk.write

/-- A command line of words, with one space between two. -/
def commandLine (ws : List Bytes) : Bytes := [' '.toUInt8].intercalate (ws.map quote)

end LastMatch.Words
