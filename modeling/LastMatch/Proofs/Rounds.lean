import LastMatch.Proofs.Editors
import LastMatch.Proofs.ReadingBack
import LastMatch.Proofs.TextQuoting
import LastMatch.Replay

/-!
# Shown command lines configure the same editor

A command line that an editor shows for a path is, if it is a text, a command for that editor with
the path as a further argument. `Editor.withArgument` is that editor; a round either leads to it or
changes nothing, and a run of rounds collects the paths that are texts.
-/

namespace LastMatch

open Utf8

namespace Words

/-- A command line begins and ends with bytes that are not blank characters. -/
theorem IsEdge.isBlank_eq_false {b : UInt8} (h : IsEdge b) :
    Text.isBlank (Char.ofUInt8 b) = false := by
  obtain ⟨hlow, hhigh⟩ := h.bounds
  have hlow : 0x20 < b.toNat := hlow
  have hhigh : b.toNat < 0x80 := hhigh
  have hcode : (Char.ofUInt8 b).toNat = b.toNat := rfl
  simp only [Text.isBlank, Text.blankRanges, hcode, List.any_cons, List.any_nil]
  simp
  omega

theorem trim_of_encode_eq_commandLine {s : String} {w : Bytes} {ws : List Bytes}
    (h : ∀ v ∈ w :: ws, 0 ∉ v) (hs : encode s = commandLine (w :: ws)) : Text.trim s = s := by
  obtain ⟨a, l, ha, hfirst⟩ := commandLine_first h
  obtain ⟨l', z, hz, hlast⟩ := commandLine_last h
  obtain ⟨cs, hcs⟩ := eq_cons_of_encodeChars hfirst.bounds.2 (hs.trans ha)
  obtain ⟨ds, hds⟩ := eq_concat_of_encodeChars hlast.bounds.2 (hs.trans hz)
  exact Text.trim_eq_self hcs hds hfirst.isBlank_eq_false hlast.isBlank_eq_false

/-- A command line is a text exactly if all its words are. -/
theorem isText_commandLine_iff {ws : List Bytes} (h : ∀ w ∈ ws, 0 ∉ w) :
    IsText (commandLine ws) ↔ ∀ w ∈ ws, IsText w :=
  ⟨fun ht => isText_of_split ht (split_commandLine h), isText_commandLine h⟩

end Words

namespace Editor

/-- The editor with one more argument. -/
def withArgument (e : Editor) (arg : String) : Editor :=
  { e with args := e.args ++ [arg] }

theorem NoNul.withArgument {e : Editor} (h : e.NoNul) {arg : String} (harg : 0 ∉ encode arg) :
    (e.withArgument arg).NoNul := by
  intro w hw
  simp only [Editor.withArgument, List.mem_cons, List.mem_append, List.not_mem_nil, or_false] at hw
  rcases hw with rfl | hw | rfl
  · exact h _ List.mem_cons_self
  · exact h w (List.mem_cons_of_mem _ hw)
  · exact harg

theorem argv_encode (e : Editor) (arg : String) :
    e.argv (encode arg) = (e.program :: (e.args ++ [arg])).map encode := by
  simp [argv]

/-- The line shown for a path is a text exactly if the path is. -/
theorem isText_displayCommand_iff {e : Editor} (h : e.NoNul) {path : Bytes} (hp : 0 ∉ path) :
    IsText (e.displayCommand path) ↔ IsText path := by
  rw [displayCommand, Words.isText_commandLine_iff (h.argv hp)]
  constructor
  · intro hall
    exact hall path (by simp [argv])
  · rintro ⟨cs, rfl⟩ w hw
    rw [← encode_ofList, argv_encode] at hw
    obtain ⟨v, _, rfl⟩ := List.mem_map.mp hw
    exact isText_encode v

/-- Parsing a shown line gives the editor, with the path as its last argument. -/
theorem parse_displayCommand {e : Editor} (h : e.NoNul) {arg line : String}
    (harg : 0 ∉ encode arg) (hline : encode line = e.displayCommand (encode arg)) :
    parse (some line) = .ok (e.withArgument arg) := by
  have hnul := h.argv harg
  have hsplit : Words.split (encode line) = some ((e.program :: (e.args ++ [arg])).map encode) := by
    rw [hline, displayCommand, Words.split_commandLine hnul, argv_encode]
  show ofTrimmed (Text.trim line) = _
  rw [Words.trim_of_encode_eq_commandLine hnul hline, ofTrimmed_of_split hsplit,
    ofWords_ok e.program_ne_empty]
  rfl

end Editor

/-! ## Rounds -/

namespace Round

/-- A path that is a text becomes an argument. -/
theorem next_of_text {e : Editor} (h : e.NoNul) {arg : String} (harg : 0 ∉ encode arg) :
    (Round.of e (encode arg)).next = some (.ok (e.withArgument arg)) := by
  obtain ⟨line, hline⟩ := (isText_iff _).mp
    ((Editor.isText_displayCommand_iff h harg).mpr (isText_encode arg))
  have hnext : (Round.of e (encode arg)).next = some (Editor.parse (some line)) := by
    simp only [Round.of, hline]
    rfl
  rw [hnext, Editor.parse_displayCommand h harg (decode?_eq_some_iff.mp hline).symm]

/-- Any other path gives a line that is no text. -/
theorem next_of_not_text {e : Editor} (h : e.NoNul) {path : Bytes} (hp : 0 ∉ path)
    (ht : decode? path = none) : (Round.of e path).next = none := by
  have hline : decode? (e.displayCommand path) = none := by
    rw [Option.eq_none_iff_forall_ne_some]
    intro s hs
    have hpath := (Editor.isText_displayCommand_iff h hp).mp ((isText_iff _).mpr ⟨s, hs⟩)
    obtain ⟨v, hv⟩ := (isText_iff _).mp hpath
    rw [ht] at hv
    cases hv
  simp only [Round.of, hline]
  rfl

end Round

/-- What a round is to do: it ends in no error, its line is a text exactly if the path is, and the
path becomes an argument exactly if it is a text. -/
structure Round.Kept (e : Editor) (path : Bytes) (r : Round) : Prop where
  next : ∀ err, r.next ≠ some (.error err)
  line : (decode? r.line).isSome = (decode? path).isSome
  noNul : (r.editorAfter e).NoNul
  program : (r.editorAfter e).program = e.program
  args : (r.editorAfter e).args = e.args ++ (decode? path).toList

namespace Editor

theorem round_kept {e : Editor} (h : e.NoNul) {path : Bytes} (hp : 0 ∉ path) :
    Round.Kept e path (Round.of e path) := by
  have hline : (decode? (Round.of e path).line).isSome = (decode? path).isSome := by
    rw [Bool.eq_iff_iff, Option.isSome_iff_exists, Option.isSome_iff_exists, ← isText_iff,
      ← isText_iff]
    exact isText_displayCommand_iff h hp
  cases ht : decode? path with
  | some arg =>
      obtain rfl := decode?_eq_some_iff.mp ht
      have hnext := Round.next_of_text h hp
      have hafter : (Round.of e (encode arg)).editorAfter e = e.withArgument arg := by
        rw [Round.editorAfter, hnext]
      refine ⟨by simp [hnext], hline, ?_, ?_, ?_⟩
      · rw [hafter]
        exact h.withArgument hp
      · rw [hafter]
        rfl
      · rw [hafter, ht]
        rfl
  | none =>
      have hnext := Round.next_of_not_text h hp ht
      have hafter : (Round.of e path).editorAfter e = e := by
        rw [Round.editorAfter, hnext]
      refine ⟨by simp [hnext], hline, ?_, ?_, ?_⟩
      · rw [hafter]
        exact h
      · rw [hafter]
      · rw [hafter, ht, Option.toList_none, List.append_nil]

/-- **Parsing undoes displaying, over whole runs.** From an editor without NULs, over any paths
without NULs: no round ends in an error, a round's line is a text exactly if its path is, and the
last editor has the program of the first, and its arguments followed by the paths that are texts. -/
theorem rounds_collect_texts (e : Editor) (paths : List Bytes) (he : e.NoNul)
    (hp : ∀ p ∈ paths, 0 ∉ p) :
    (∀ r ∈ e.rounds paths, ∀ err, r.next ≠ some (.error err)) ∧
    (e.rounds paths).map (fun r => (decode? r.line).isSome) =
      paths.map (fun p => (decode? p).isSome) ∧
    (e.afterRounds paths).program = e.program ∧
    (e.afterRounds paths).args = e.args ++ paths.filterMap decode? := by
  induction paths generalizing e with
  | nil => exact ⟨by simp [rounds], rfl, rfl, (List.append_nil _).symm⟩
  | cons path paths ih =>
      have hkept := round_kept he (hp path List.mem_cons_self)
      obtain ⟨hnext, hline, hprogram, hargs⟩ :=
        ih _ hkept.noNul (fun p hmem => hp p (List.mem_cons_of_mem path hmem))
      refine ⟨?_, ?_, ?_, ?_⟩
      · intro r hr
        rcases List.mem_cons.mp hr with rfl | hr
        · exact hkept.next
        · exact hnext r hr
      · rw [rounds, List.map_cons, List.map_cons, hkept.line, hline]
      · show (afterRounds _ paths).program = _
        rw [hprogram, hkept.program]
      · show (afterRounds _ paths).args = _
        rw [hargs, hkept.args, List.append_assoc]
        cases ht : decode? path <;> simp [ht]

/-- A path that is no text between two that are, with every mark that quoting has to treat. -/
theorem rounds_collect_texts_mixed :
    let e : Editor := ⟨"vi", ["", "a b"], by decide⟩
    let paths := [encode "it's^x", [0xC3], encode "é\\\"$!\n#"]
    e.NoNul ∧ (∀ p ∈ paths, 0 ∉ p) ∧
      (e.afterRounds paths).args = ["", "a b", "it's^x", "é\\\"$!\n#"] := by
  intro e paths
  have he : e.NoNul := by decide
  have hp : ∀ p ∈ paths, 0 ∉ p := by decide
  exact ⟨he, hp, (rounds_collect_texts e paths he hp).2.2.2⟩

end Editor

end LastMatch
