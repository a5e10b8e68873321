/-!
# Similarity of words

The Jaro similarity of two words, and the choice of the word that is most similar to a misspelt one.

Two letters match if they are equal and stand about as far from the start of their words. Each
letter of the first word takes the first free match in the second. The similarity is the mean of
three parts: the share of matched letters in either word, and the share of them that keep their
order. It is a double-precision number, and the sums are rounded as such.
-/

namespace LastMatch.Text

/-- How far apart matching letters may stand in words of these lengths. -/
def matchRange (m n : Nat) : Nat := max m n / 2 - 1

/-- The first place in `b` that is free and matches letter `c` at place `i` of the other word. -/
def matchFor (range : Nat) (b : List Char) (taken : List Nat) (i : Nat) (c : Char) : Option Nat :=
  (List.range b.length).find? fun j =>
    i ≤ j + range && j ≤ i + range && b[j]? == some c && !taken.contains j

/-- The letters of `a` that have a match, each with the place of its match in `b`, last first. -/
def matchedLetters (a b : List Char) : List (Char × Nat) :=
  let range := matchRange a.length b.length
  a.zipIdx.foldl
    (fun found (c, i) =>
      match matchFor range b (found.map (·.2)) i c with
      | some j => (c, j) :: found
      | none => found)
    []

/-- The Jaro similarity of two words, from 0 for nothing in common to 1 for the same word. -/
def similarity (a b : List Char) : Float :=
  let found := (matchedLetters a b).reverse
  let inSecond := (List.range b.length).filter (found.map (·.2)).contains
  let moved := ((found.map (·.1)).zip (inSecond.filterMap (b[·]?))).countP fun (x, y) => x != y
  let m := found.length.toFloat
  if a.isEmpty && b.isEmpty then 1
  else if found.isEmpty then 0
  else (m / a.length.toFloat + m / b.length.toFloat +
    (found.length - moved / 2).toFloat / m) / 3

/-- The most similar of some words, if its similarity is above 0.7; the last one if several are
equally similar. -/
def mostSimilar (word : String) (candidates : List String) : Option String :=
  (candidates.foldl
    (fun (best : Option (Float × String)) candidate =>
      let s := similarity word.toList candidate.toList
      -- not less than the best so far: of equals, the last one stays
      if s > 0.7 && best.all (fun b => b.1 ≤ s) then some (s, candidate) else best)
    none).map (·.2)

end LastMatch.Text
