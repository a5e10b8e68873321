/-!
# Texts as bytes

Paths and command-line words are byte strings; editor commands and messages are texts. This module
holds the passage between the two:

* `Utf8.encode` — the UTF-8 bytes of a text;
* `Utf8.decode?` — the text that some bytes encode, if there is one. `decode?_eq_some_iff` says
  that it inverts `encode` exactly;
* `Utf8.decodeLossy` — a text for any bytes: each malformed part becomes U+FFFD. A malformed part
  is the longest start of an encoding that is broken off, or else a single byte.
-/

namespace LastMatch

/-- A byte string: the form of paths, lines and command-line words. -/
abbrev Bytes := List UInt8

namespace Utf8

def encodeChars (cs : List Char) : Bytes := cs.flatMap String.utf8EncodeChar

/-- The bytes of a text. -/
def encode (s : String) : Bytes := encodeChars s.toList

/-- The text whose encoding the bytes are. -/
def decode? (bs : Bytes) : Option String := String.fromUTF8? bs.toByteArray

theorem toByteArray_encode (s : String) : (encode s).toByteArray = s.toByteArray := by
  rw [← String.utf8Encode_toList]
  rfl

theorem toByteArray_injective {a b : Bytes} (h : a.toByteArray = b.toByteArray) : a = b := by
  have := congrArg (fun x => x.data.toList) h
  simpa using this

/-- Decoding inverts encoding, and nothing else decodes. -/
theorem decode?_eq_some_iff {bs : Bytes} {s : String} : decode? bs = some s ↔ bs = encode s := by
  unfold decode? String.fromUTF8?
  split
  · rename_i h
    constructor
    · intro hs
      apply toByteArray_injective
      rw [toByteArray_encode, ← Option.some.inj hs]
      rfl
    · rintro rfl
      congr 1
      apply String.toByteArray_inj.mp
      exact toByteArray_encode s
  · rename_i h
    simp only [reduceCtorEq, false_iff]
    rintro rfl
    apply h
    rw [toByteArray_encode]
    exact s.isValidUTF8

@[simp] theorem decode?_encode (s : String) : decode? (encode s) = some s :=
  decode?_eq_some_iff.mpr rfl

/-! ## Malformed bytes -/

def charOf? (bs : Bytes) : Option Char :=
  match (decode? bs).map String.toList with
  | some [c] => some c
  | _ => none

/-- The first character of the bytes, if they start with a whole one. -/
def firstChar? (bs : Bytes) : Option Char :=
  [1, 2, 3, 4].findSome? fun n => charOf? (bs.take n)

/-- May the second byte of a character that starts with `a` be `b`? Four first bytes narrow the
range: overlong forms, surrogates and code points past U+10FFFF have no encoding. -/
def secondFits (a b : UInt8) : Bool :=
  let low : UInt8 := if a = 0xE0 then 0xA0 else if a = 0xF0 then 0x90 else 0x80
  let high : UInt8 := if a = 0xED then 0x9F else if a = 0xF4 then 0x8F else 0xBF
  low ≤ b && b ≤ high

/-- Are the bytes a beginning of some character's encoding, with at least one byte to come? -/
def isUnfinished : Bytes → Bool
  | [a] => 0xC2 ≤ a && a ≤ 0xF4
  | [a, b] => 0xE0 ≤ a && a ≤ 0xF4 && secondFits a b
  | [a, b, c] => 0xF0 ≤ a && a ≤ 0xF4 && secondFits a b && 0x80 ≤ c && c ≤ 0xBF
  | _ => false

/-- Where a lenient reading stands: the characters read, last first, and the bytes of a character
that is not finished yet. -/
structure Lenient where
  read : List Char
  unfinished : Bytes

namespace Lenient

/-- Reads a byte with no unfinished character before it. -/
def first (read : List Char) (b : UInt8) : Lenient :=
  match charOf? [b] with
  | some c => ⟨c :: read, []⟩
  | none => if isUnfinished [b] then ⟨read, [b]⟩ else ⟨'\uFFFD' :: read, []⟩

/-- Reads one byte. Where it cannot continue the unfinished character, that character's bytes are
one malformed part and the byte is looked at afresh. -/
def step (s : Lenient) (b : UInt8) : Lenient :=
  match s.unfinished with
  | [] => first s.read b
  | seen =>
    match charOf? (seen ++ [b]) with
    | some c => ⟨c :: s.read, []⟩
    | none =>
      if isUnfinished (seen ++ [b]) then ⟨s.read, seen ++ [b]⟩
      -- the byte may still start a character of its own
      else first ('\uFFFD' :: s.read) b

/-- The characters read, with a character that the end breaks off as one malformed part. -/
def finish (s : Lenient) : List Char :=
  match s.unfinished with
  | [] => s.read.reverse
  | _ => ('\uFFFD' :: s.read).reverse

end Lenient

/-- A text for any bytes, with U+FFFD for each malformed part. -/
def decodeLossy (bs : Bytes) : String :=
  match decode? bs with
  | some s => s
  | none => String.ofList (bs.foldl Lenient.step ⟨[], []⟩).finish

@[simp] theorem decodeLossy_encode (s : String) : decodeLossy (encode s) = s := by
  simp [decodeLossy]

end Utf8

end LastMatch
