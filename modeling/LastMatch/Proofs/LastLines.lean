import LastMatch.Proofs.Lines
import LastMatch.Proofs.Openings

/-!
# The path in the last line

What is selected from a stream, said of its bytes alone. A stream that is not empty has one last
line: `EndsInLine` cuts it before that line and before the newline that ends it, if one does, and
there is only one way to do so (`EndsInLine.unique`). The selection is the part of the line's text
before its first delimiter, or all of it, whatever stands before the line.
-/

namespace LastMatch

open Utf8

variable {stream before line ending : Bytes}

/-! ## The last line -/

/-- A stream, cut before its last line and before the ending of that. What is before the line ends
with a newline, if there is anything. A line that nothing ends has some bytes. -/
structure EndsInLine (stream before line ending : Bytes) : Prop where
  stream_eq : stream = before ++ line ++ ending
  before_ended : before = [] ∨ ∃ lines, before = lines ++ [newline]
  newline_not_mem : newline ∉ line
  ending_eq : ending = [newline] ∨ (ending = [] ∧ line ≠ [])

/-- The text of a line: a carriage return before a newline belongs to the ending. -/
def lineText (line ending : Bytes) : Bytes :=
  if ending = [newline] ∧ line.getLast? = some carriageReturn then line.dropLast else line

/-- Some bytes end in a part without newlines, and a newline stands before that part. -/
theorem exists_unbroken (bs : Bytes) :
    ∃ before line, bs = before ++ line ∧ (before = [] ∨ ∃ lines, before = lines ++ [newline]) ∧
      newline ∉ line := by
  induction bs with
  | nil => exact ⟨[], [], rfl, .inl rfl, List.not_mem_nil⟩
  | cons b bs ih =>
      obtain ⟨before, line, rfl, rfl | ⟨lines, rfl⟩, hline⟩ := ih
      · by_cases hb : b = newline
        · subst hb
          exact ⟨[newline], line, rfl, .inr ⟨[], rfl⟩, hline⟩
        · exact ⟨[], b :: line, rfl, .inl rfl, by simp [Ne.symm hb, hline]⟩
      · exact ⟨b :: (lines ++ [newline]), line, rfl, .inr ⟨b :: lines, rfl⟩, hline⟩

theorem exists_endsInLine (h : stream ≠ []) :
    ∃ before line ending, EndsInLine stream before line ending := by
  rcases List.eq_nil_or_concat stream with rfl | ⟨bs, b, rfl⟩
  · exact absurd rfl h
  · rw [List.concat_eq_append]
    by_cases hb : b = newline
    · subst hb
      obtain ⟨before, line, rfl, hbefore, hline⟩ := exists_unbroken bs
      exact ⟨before, line, [newline], rfl, hbefore, hline, .inl rfl⟩
    · obtain ⟨before, line, heq, hbefore, hline⟩ := exists_unbroken (bs ++ [b])
      refine ⟨before, line, [], by rw [heq, List.append_nil], hbefore, hline, .inr ⟨rfl, ?_⟩⟩
      -- without the line, the newline before it would be the last byte
      rintro rfl
      rw [List.append_nil] at heq
      rcases hbefore with rfl | ⟨lines, rfl⟩
      · simp at heq
      · exact hb (List.cons.inj (List.append_inj_right' heq rfl)).1

/-- What the cursor holds behind the stream: the last line, as ended or not. -/
theorem EndsInLine.foldl_step (h : EndsInLine stream before line ending) :
    (ending = [newline] ∧
      stream.foldl LineCursor.step LineCursor.start = ⟨some line.reverse, []⟩) ∨
    (ending = [] ∧ line ≠ [] ∧
      (stream.foldl LineCursor.step LineCursor.start).current = line.reverse) := by
  obtain ⟨rfl, hbefore, hline, hending⟩ := h
  have hcurrent : (before.foldl LineCursor.step LineCursor.start).current = [] := by
    rcases hbefore with rfl | ⟨lines, rfl⟩
    · rfl
    · rw [List.foldl_append, List.foldl_cons, LineCursor.step_newline, List.foldl_nil]
  rw [List.append_assoc, List.foldl_append]
  rcases hending with rfl | ⟨rfl, hne⟩
  · left
    rw [LineCursor.foldl_step_line hline, hcurrent, List.append_nil]
    exact ⟨rfl, rfl⟩
  · right
    rw [List.append_nil, LineCursor.foldl_step hline, hcurrent, List.append_nil]
    exact ⟨rfl, hne, rfl⟩

theorem EndsInLine.unique {before' line' ending' : Bytes}
    (h : EndsInLine stream before line ending) (h' : EndsInLine stream before' line' ending') :
    before' = before ∧ line' = line ∧ ending' = ending := by
  have hparts : line' = line ∧ ending' = ending := by
    rcases h.foldl_step with ⟨rfl, hc⟩ | ⟨rfl, hne, hc⟩ <;>
      rcases h'.foldl_step with ⟨rfl, hc'⟩ | ⟨rfl, hne', hc'⟩
    · rw [hc] at hc'
      simpa [eq_comm] using hc'
    · rw [hc] at hc'
      exact absurd (List.reverse_eq_nil_iff.mp hc'.symm) hne'
    · rw [hc'] at hc
      exact absurd (List.reverse_eq_nil_iff.mp hc.symm) hne
    · exact ⟨List.reverse_inj.mp (hc'.symm.trans hc), rfl⟩
  obtain ⟨rfl, rfl⟩ := hparts
  have heq := h.stream_eq.symm.trans h'.stream_eq
  exact ⟨(List.append_cancel_right (List.append_cancel_right heq)).symm, rfl, rfl⟩

theorem reverse_dropReturn (line : Bytes) :
    (LineCursor.dropReturn line.reverse).reverse = lineText line [newline] := by
  rcases List.eq_nil_or_concat line with rfl | ⟨bs, b, rfl⟩
  · rfl
  · by_cases hb : b = carriageReturn <;>
      simp [LineCursor.dropReturn, lineText, hb]

theorem EndsInLine.lastLineOf_eq (h : EndsInLine stream before line ending) :
    lastLineOf stream = some (lineText line ending) := by
  rw [lastLineOf, LineCursor.lastLine]
  rcases h.foldl_step with ⟨rfl, hc⟩ | ⟨rfl, hne, hc⟩
  · rw [hc, ← reverse_dropReturn]
    rfl
  · rw [hc]
    split
    · rename_i hnil
      exact absurd (List.reverse_eq_nil_iff.mp hnil) hne
    · simp [lineText]

theorem mem_of_mem_lineText {b : UInt8} (hb : b ∈ lineText line ending) : b ∈ line := by
  rw [lineText] at hb
  split at hb
  · exact (List.dropLast_sublist line).subset hb
  · exact hb

theorem newline_not_mem_lineText (h : newline ∉ line) : newline ∉ lineText line ending :=
  fun hmem => h (mem_of_mem_lineText hmem)

/-! ## The path -/

theorem pathOf_append {q r : Bytes} (h : delimiter ∉ q) : pathOf (q ++ delimiter :: r) = q :=
  takeWhile_ne_append h

namespace Selection

theorem ofLine_eq_matched_iff {l q : Bytes} :
    ofLine (some l) = .matched q ↔ delimiter ∉ q ∧ ∃ r, l = q ++ delimiter :: r := by
  constructor
  · intro h
    rw [ofLine] at h
    split at h
    · rename_i hmem
      obtain ⟨a, r, rfl, ha⟩ := List.eq_append_cons_of_mem hmem
      rw [pathOf_append ha] at h
      cases h
      exact ⟨ha, r, rfl⟩
    · cases h
  · rintro ⟨hq, r, rfl⟩
    rw [ofLine, if_pos (by simp), pathOf_append hq]

theorem ofLine_eq_bare_iff {l p : Bytes} :
    ofLine (some l) = .bare p ↔ p = l ∧ delimiter ∉ l := by
  rw [ofLine]
  split
  · rename_i hmem
    simp [hmem]
  · rename_i hmem
    simp [hmem, eq_comm]

theorem ofLine_some_ne_empty (l : Bytes) : ofLine (some l) ≠ .empty := by
  rw [ofLine]
  split <;> simp

/-- A path has no delimiter, and only bytes of its line. -/
theorem delimiter_not_mem_path (l : Option Bytes) : delimiter ∉ (ofLine l).path := by
  cases l with
  | none => exact List.not_mem_nil
  | some l =>
      cases h : ofLine (some l) with
      | empty => exact List.not_mem_nil
      | matched q => exact (ofLine_eq_matched_iff.mp h).1
      | bare p =>
          obtain ⟨rfl, hp⟩ := ofLine_eq_bare_iff.mp h
          exact hp

theorem mem_of_mem_path {l : Bytes} {b : UInt8} (hb : b ∈ (ofLine (some l)).path) : b ∈ l := by
  cases h : ofLine (some l) with
  | empty => exact absurd h (ofLine_some_ne_empty l)
  | matched q =>
      obtain ⟨_, r, rfl⟩ := ofLine_eq_matched_iff.mp h
      rw [h] at hb
      exact List.mem_append_left _ hb
  | bare p =>
      obtain ⟨rfl, _⟩ := ofLine_eq_bare_iff.mp h
      rwa [h] at hb

theorem ofBytes_of_endsInLine (h : EndsInLine stream before line ending) :
    ofBytes stream = ofLine (some (lineText line ending)) := by
  rw [ofBytes, h.lastLineOf_eq]

theorem ofBytes_eq_empty_iff : ofBytes stream = .empty ↔ stream = [] := by
  constructor
  · intro h
    by_cases hne : stream = []
    · exact hne
    · obtain ⟨before, line, ending, hcut⟩ := exists_endsInLine hne
      rw [ofBytes_of_endsInLine hcut] at h
      exact absurd h (ofLine_some_ne_empty _)
  · rintro rfl
    rfl

theorem newline_not_mem_path (stream : Bytes) : newline ∉ (ofBytes stream).path := by
  by_cases hne : stream = []
  · subst hne
    exact List.not_mem_nil
  · obtain ⟨before, line, ending, hcut⟩ := exists_endsInLine hne
    rw [ofBytes_of_endsInLine hcut]
    exact fun hmem => newline_not_mem_lineText hcut.newline_not_mem (mem_of_mem_path hmem)

end Selection

/-- The path that the bytes of a stream hold. It stands in the last line before the first delimiter,
or is the whole of that line. A stream without lines holds the empty path. -/
inductive HoldsPath (stream : Bytes) : Bytes → Prop where
  | nothing : stream = [] → HoldsPath stream []
  | beforeDelimiter {before line ending q r : Bytes} : EndsInLine stream before line ending →
      lineText line ending = q ++ delimiter :: r → delimiter ∉ q → HoldsPath stream q
  | wholeLine {before line ending : Bytes} : EndsInLine stream before line ending →
      delimiter ∉ lineText line ending → HoldsPath stream (lineText line ending)

/-- It is the path that is selected. -/
theorem holdsPath_iff {path : Bytes} :
    HoldsPath stream path ↔ path = (Selection.ofBytes stream).path := by
  constructor
  · intro h
    cases h with
    | nothing hnil =>
        rw [Selection.ofBytes_eq_empty_iff.mpr hnil]
        rfl
    | beforeDelimiter hcut hline hq =>
        rw [Selection.ofBytes_of_endsInLine hcut,
          Selection.ofLine_eq_matched_iff.mpr ⟨hq, _, hline⟩]
        rfl
    | wholeLine hcut hline =>
        rw [Selection.ofBytes_of_endsInLine hcut, Selection.ofLine_eq_bare_iff.mpr ⟨rfl, hline⟩]
        rfl
  · rintro rfl
    by_cases hne : stream = []
    · rw [Selection.ofBytes_eq_empty_iff.mpr hne]
      exact .nothing hne
    · obtain ⟨before, line, ending, hcut⟩ := exists_endsInLine hne
      rw [Selection.ofBytes_of_endsInLine hcut]
      cases h : Selection.ofLine (some (lineText line ending)) with
      | empty => exact absurd h (Selection.ofLine_some_ne_empty _)
      | matched q =>
          obtain ⟨hq, r, hline⟩ := Selection.ofLine_eq_matched_iff.mp h
          exact .beforeDelimiter hcut hline hq
      | bare p =>
          obtain ⟨rfl, hline⟩ := Selection.ofLine_eq_bare_iff.mp h
          exact .wholeLine hcut hline

theorem HoldsPath.unique {path path' : Bytes} (h : HoldsPath stream path)
    (h' : HoldsPath stream path') : path' = path :=
  (holdsPath_iff.mp h').trans (holdsPath_iff.mp h).symm

/-- **The selection is the part of the last line before its first delimiter.** For every stream that
is read to its end: nothing is selected exactly if the stream is empty; otherwise its last line is
determined, and it alone determines the selection. The path can be printed as one line. -/
theorem selection_of_last_line {input : Input} (h : input.Endures) :
    ∃ s, Selection.read input = (.ok s, []) ∧
      (s = .empty ↔ input.bytes = []) ∧
      (input.bytes ≠ [] →
        ∃ before line ending, EndsInLine input.bytes before line ending ∧
          (∀ before' line' ending', EndsInLine input.bytes before' line' ending' →
            before' = before ∧ line' = line ∧ ending' = ending) ∧
          (∀ q, s = .matched q ↔ delimiter ∉ q ∧ ∃ r, lineText line ending = q ++ delimiter :: r) ∧
          (∀ p, s = .bare p ↔ p = lineText line ending ∧ delimiter ∉ lineText line ending) ∧
          ∀ input' before', input'.Endures → EndsInLine input'.bytes before' line ending →
            Selection.read input' = (.ok s, [])) ∧
      delimiter ∉ s.path ∧ newline ∉ s.path ∧
      ∀ (host : Host) (o : Opening), host.stdoutFault = none → o.mode = .print →
        (o.run host input).written = s.path ++ [newline] := by
  have hread := Selection.read_of_endures h
  refine ⟨.ofBytes input.bytes, hread, Selection.ofBytes_eq_empty_iff, ?_,
    Selection.delimiter_not_mem_path _, Selection.newline_not_mem_path _, ?_⟩
  · intro hne
    obtain ⟨before, line, ending, hcut⟩ := exists_endsInLine hne
    refine ⟨before, line, ending, hcut, fun _ _ _ hcut' => hcut.unique hcut', ?_, ?_, ?_⟩
    · intro q
      rw [Selection.ofBytes_of_endsInLine hcut, Selection.ofLine_eq_matched_iff]
    · intro p
      rw [Selection.ofBytes_of_endsInLine hcut, Selection.ofLine_eq_bare_iff]
    · intro input' before' h' hcut'
      rw [Selection.read_of_endures h', Selection.ofBytes_of_endsInLine hcut',
        Selection.ofBytes_of_endsInLine hcut]
  · intro host o hout hmode
    have hp : o.purpose = .ok .print := by rw [Opening.purpose, hmode]
    exact Opening.written_of_writeLine hout hp hread rfl

/-- A line with several carriage returns, one of which belongs to its ending, behind another line and
then by itself in two pieces. -/
theorem selection_of_last_line_returns :
    let input : Input := [.data (encode "a:1\nw\rin:x\r\r\n")]
    let other : Input := [.data (encode "w\rin:x\r"), .data (encode "\r\n")]
    let host : Host := ⟨none, fun _ => .error .noSuchFile⟩
    input.Endures ∧ other.Endures ∧
      EndsInLine input.bytes (encode "a:1\n") (encode "w\rin:x\r\r") [newline] ∧
      Selection.read input = (.ok (.matched (encode "w\rin")), []) ∧
      Selection.read other = (.ok (.matched (encode "w\rin")), []) ∧
      (Opening.run host ⟨none, .print, true⟩ input).written = encode "w\rin\n" := by
  intro input other host
  have hinput : input.Endures := by simp [input, Input.Endures]
  have hother : other.Endures := by simp [other, Input.Endures]
  have hcut : EndsInLine input.bytes (encode "a:1\n") (encode "w\rin:x\r\r") [newline] :=
    ⟨rfl, .inr ⟨encode "a:1", rfl⟩, by decide, .inl rfl⟩
  have hcut' : EndsInLine other.bytes [] (encode "w\rin:x\r\r") [newline] :=
    ⟨rfl, .inl rfl, by decide, .inl rfl⟩
  obtain ⟨s, hread, _, hlast, _, _, hprint⟩ := selection_of_last_line hinput
  obtain ⟨before, line, ending, _, hunique, hmatched, _, hsame⟩ := hlast (by decide)
  obtain ⟨rfl, rfl, rfl⟩ := hunique _ _ _ hcut
  obtain rfl : s = .matched (encode "w\rin") :=
    (hmatched _).mpr ⟨by decide, encode "x\r", by decide⟩
  exact ⟨hinput, hother, hcut, hread, hsame other _ hother hcut', hprint host _ rfl rfl⟩

end LastMatch
