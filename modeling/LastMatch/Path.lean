import LastMatch.Text.Utf8

/-!
# Paths as lists of names
-/

namespace LastMatch.Path

def slash : UInt8 := '/'.toUInt8

/-- The name of the place where one is. -/
def here : Bytes := ['.'.toUInt8]

/-- The name of the place above. -/
def above : Bytes := ['.'.toUInt8, '.'.toUInt8]

/-- The names in a path, cut at the separators. A path that starts at the root has an empty first
name. -/
def names (path : Bytes) : List Bytes :=
  path.foldr
    (fun b names => if b = slash then [] :: names else
      match names with
      | [] => [[b]]
      | name :: rest => (b :: name) :: rest)
    [[]]

/-- The name of the file that a path leads to, if the path ends with one. Empty names and `.` lead
nowhere and are passed over. -/
def fileName? (path : Bytes) : Option Bytes :=
  ((names path).filter fun name => !name.isEmpty && name ≠ here).getLast?.filter (· ≠ above)

end LastMatch.Path
