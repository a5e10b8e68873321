import LastMatch.Text.Utf8
import LastMatch.Words.Symbol

/-!
# Splitting a command line into words

The splitter reads a command line letter by letter. `Place` says where it stands; a place inside a
word holds the letters that the word has so far. Reading is a fold of `step`, so what a line means
is settled by the state that its letters lead to (`run_append`).

* Outside quotation marks, blanks and newlines separate words, and a backslash takes the next letter
  as it is; a backslash before a newline stands for nothing, but a word has begun.
* `'...'` is literal. In `"..."` a backslash quotes only `$`, a backquote, `"` and another
  backslash, vanishes together with a newline, and otherwise stays.
* `#` where a word would start begins a comment that runs to the end of the line.
* A line that ends inside quotation marks or just after a backslash has no words at all.

The letters may be of any type: `kind` tells the part that each of them plays.
-/

namespace LastMatch.Words

variable {α : Type}

/-- Where the splitter stands. The letters of an unfinished word are held last first. -/
inductive Place (α : Type) where
  /-- Between words. -/
  | gap
  | comment
  /-- In a word, outside quotation marks. -/
  | word (w : List α)
  /-- After a backslash outside quotation marks. -/
  | escaped (w : List α)
  | single (w : List α)
  | double (w : List α)
  /-- After a backslash between double quotation marks. -/
  | doubleEscaped (w : List α) (backslash : α)
  deriving DecidableEq, Repr

/-- A splitter: where it stands, and the words that are complete, last first. -/
structure Splitter (α : Type) where
  place : Place α
  complete : List (List α)
  deriving DecidableEq, Repr

namespace Splitter

def start : Splitter α := ⟨.gap, []⟩

/-- The place after a letter that belongs to a word and stands outside quotation marks. -/
def inWord (w : List α) (k : Symbol) (a : α) : Place α :=
  match k with
  | .backslash => .escaped w
  | .apostrophe => .single w
  | .quote => .double w
  | _ => .word (a :: w)

def step (kind : α → Symbol) (s : Splitter α) (a : α) : Splitter α :=
  match s.place, kind a with
  | .gap, .blank => s
  | .gap, .newline => s
  | .gap, .hash => { s with place := .comment }
  | .gap, k => { s with place := inWord [] k a }
  | .comment, .newline => { s with place := .gap }
  | .comment, _ => s
  | .word w, .blank => ⟨.gap, w.reverse :: s.complete⟩
  | .word w, .newline => ⟨.gap, w.reverse :: s.complete⟩
  | .word w, k => { s with place := inWord w k a }
  -- the line goes on, and so does the word
  | .escaped w, .newline => { s with place := .word w }
  | .escaped w, _ => { s with place := .word (a :: w) }
  | .single w, .apostrophe => { s with place := .word w }
  | .single w, _ => { s with place := .single (a :: w) }
  | .double w, .quote => { s with place := .word w }
  | .double w, .backslash => { s with place := .doubleEscaped w a }
  | .double w, _ => { s with place := .double (a :: w) }
  | .doubleEscaped w _, .newline => { s with place := .double w }
  -- the backslash stays where it quotes nothing
  | .doubleEscaped w b, k =>
    { s with place := .double (if k.isGuarded then a :: w else a :: b :: w) }

def run (kind : α → Symbol) (s : Splitter α) (l : List α) : Splitter α :=
  l.foldl (step kind) s

@[simp] theorem run_nil (kind : α → Symbol) (s : Splitter α) : s.run kind [] = s := rfl

@[simp] theorem run_cons (kind : α → Symbol) (s : Splitter α) (a : α) (l : List α) :
    s.run kind (a :: l) = (s.step kind a).run kind l := rfl

theorem run_append (kind : α → Symbol) (s : Splitter α) (l m : List α) :
    s.run kind (l ++ m) = (s.run kind l).run kind m := by
  simp [run]

/-- The words, if the line may end here. -/
def finish (s : Splitter α) : Option (List (List α)) :=
  match s.place with
  | .gap | .comment => some s.complete.reverse
  | .word w => some (w.reverse :: s.complete).reverse
  | .escaped _ | .single _ | .double _ | .doubleEscaped _ _ => none

end Splitter

/-- The words of a command line, if every quotation mark is closed and no backslash stands last. -/
def splitBy (kind : α → Symbol) (line : List α) : Option (List (List α)) :=
  (Splitter.start.run kind line).finish

def split (line : Bytes) : Option (List Bytes) := splitBy Symbol.ofByte line

end LastMatch.Words
