import LastMatch.Proofs.Reading
import LastMatch.Proofs.Texts

/-!
# Reading line by line

The last line can also be found by reading one line after another: each line is read to its newline,
through all the pieces that it arrives in, and takes the place of the line before. What is read when
nothing is left is no line.

* `Input.readLine` reads one line, with its newline;
* `Input.lastOfLines` is the loop around it.

Following the stream byte by byte gives the same line and leaves the same events
(`lastLine_eq_lastOfLines`). The invariant is that between two lines the cursor holds the line that
the loop keeps (`readWith_eq_lastOfLines`).
-/

namespace LastMatch

namespace LineCursor

variable {c : LineCursor} {l : Bytes}

theorem step_newline : step c newline = ⟨some c.current, []⟩ := if_pos rfl

/-- Bytes without a newline among them are added to the line that is not ended yet. -/
theorem foldl_step (h : newline ∉ l) : l.foldl step c = ⟨c.ended, l.reverse ++ c.current⟩ := by
  induction l generalizing c with
  | nil => rfl
  | cons b l ih =>
      have hb : b ≠ newline := fun hb => h (hb ▸ List.mem_cons_self)
      rw [List.foldl_cons, step, if_neg hb, ih (fun hl => h (List.mem_cons_of_mem b hl))]
      simp

/-- A line with its newline. -/
theorem foldl_step_line (h : newline ∉ l) :
    (l ++ [newline]).foldl step c = ⟨some (l.reverse ++ c.current), []⟩ := by
  rw [List.foldl_append, foldl_step h, List.foldl_cons, step_newline, List.foldl_nil]

end LineCursor

/-- A line without its ending: a newline, and a carriage return before that. -/
def withoutEnding (line : Bytes) : Bytes :=
  match line.reverse with
  | b :: l => if b = newline then (LineCursor.dropReturn l).reverse else line
  | [] => line

theorem withoutEnding_line (l : Bytes) :
    withoutEnding (l ++ [newline]) = (LineCursor.dropReturn l.reverse).reverse := by
  rw [withoutEnding, List.reverse_append]
  exact if_pos rfl

/-- What ends without a newline has no ending. -/
theorem withoutEnding_of_not_mem {l : Bytes} (h : newline ∉ l) : withoutEnding l = l := by
  rw [withoutEnding]
  split
  · rename_i b r hr
    have hb : b ∈ l := List.mem_reverse.mp (hr ▸ List.mem_cons_self)
    exact if_neg (ne_of_mem_of_not_mem hb h)
  · rfl

namespace Input

/-! ## One line -/

/-- Reads to the next newline, which belongs to what is read, or to the end of the stream. -/
def readLine : Input → Except ReadFailure Bytes × Input
  | [] => (.ok [], [])
  | .data bs :: rest =>
    match bs.dropWhile (· ≠ newline) with
    | b :: later => (.ok (bs.takeWhile (· ≠ newline) ++ [b]), .data later :: rest)
    | [] =>
      let (result, unread) := readLine rest
      (result.map (bs ++ ·), unread)
  | .failure f :: rest =>
    -- what has been read of the line is kept
    if f.kind = .interrupted then readLine rest else (.error f, rest)

variable {bs a later line : Bytes} {rest input unread : Input} {f : ReadFailure}

/-- A piece without a newline is the beginning of what is read. -/
theorem readLine_of_not_mem (h : newline ∉ bs) :
    readLine (.data bs :: rest) = ((readLine rest).1.map (bs ++ ·), (readLine rest).2) := by
  rw [readLine, dropWhile_ne_of_not_mem h]

/-- A piece with a newline is read as far as that, and what is behind it stays. -/
theorem readLine_of_newline (h : newline ∉ a) :
    readLine (.data (a ++ newline :: later) :: rest) =
      (.ok (a ++ [newline]), .data later :: rest) := by
  rw [readLine, dropWhile_ne_append h, takeWhile_ne_append h]

/-- Reading a line takes its bytes off the stream. It ends with its newline, or the stream ends. -/
structure Takes (input : Input) (line : Bytes) (unread : Input) : Prop where
  reading : ∀ {σ : Type} (step : σ → UInt8 → σ) (s : σ),
    input.readWith step s = unread.readWith step (line.foldl step s)
  bytes_eq : input.bytes = line ++ unread.bytes
  shape : (∃ l, newline ∉ l ∧ line = l ++ [newline]) ∨ (newline ∉ line ∧ unread = [])

/-- A piece that arrives before the rest of the line belongs to the line. -/
theorem Takes.data (h : Takes input line unread) (hbs : newline ∉ bs) :
    Takes (.data bs :: input) (bs ++ line) unread where
  reading step s := by rw [readWith, h.reading, List.foldl_append]
  bytes_eq := by rw [bytes_data_cons, h.bytes_eq, List.append_assoc]
  shape := by
    rcases h.shape with ⟨l, hl, rfl⟩ | ⟨hl, hunread⟩
    · exact .inl ⟨bs ++ l, by simp [hbs, hl], by simp⟩
    · exact .inr ⟨by simp [hbs, hl], hunread⟩

theorem Takes.interrupted (h : Takes input line unread) (hf : f.kind = .interrupted) :
    Takes (.failure f :: input) line unread where
  reading step s := by rw [readWith, if_pos hf, h.reading]
  bytes_eq := h.bytes_eq
  shape := h.shape

theorem takes_of_readLine (h : readLine input = (.ok line, unread)) : Takes input line unread := by
  induction input generalizing line with
  | nil =>
      cases h
      exact ⟨fun _ _ => rfl, rfl, .inr ⟨List.not_mem_nil, rfl⟩⟩
  | cons e rest ih =>
      cases e with
      | data bs =>
          by_cases hn : newline ∈ bs
          · obtain ⟨a, later, rfl, ha⟩ := List.eq_append_cons_of_mem hn
            rw [readLine_of_newline ha] at h
            cases h
            refine ⟨?_, by simp, .inl ⟨a, ha, rfl⟩⟩
            intro σ step s
            simp [readWith]
          · rw [readLine_of_not_mem hn] at h
            cases hrest : readLine rest with
            | mk result after =>
                rw [hrest] at h
                cases result with
                | error f => cases h
                | ok line =>
                    cases h
                    exact (ih hrest).data hn
      | failure f =>
          rw [readLine] at h
          split at h
          · rename_i hf
            exact (ih h).interrupted hf
          · cases h

/-- A failure while a line is read breaks the whole reading off. -/
theorem readWith_of_readLine_error (h : readLine input = (.error f, unread)) {σ : Type}
    (step : σ → UInt8 → σ) (s : σ) : input.readWith step s = (.error f, unread) := by
  induction input generalizing s with
  | nil => cases h
  | cons e rest ih =>
      cases e with
      | data bs =>
          by_cases hn : newline ∈ bs
          · obtain ⟨a, later, rfl, ha⟩ := List.eq_append_cons_of_mem hn
            rw [readLine_of_newline ha] at h
            cases h
          · rw [readLine_of_not_mem hn] at h
            cases hrest : readLine rest with
            | mk result after =>
                rw [hrest] at h
                cases result with
                | error g =>
                    cases h
                    exact ih hrest _
                | ok line => cases h
      | failure g =>
          rw [readLine] at h
          rw [readWith]
          split at h
          · rename_i hg
            rw [if_pos hg]
            exact ih h s
          · rename_i hg
            rw [if_neg hg]
            cases h
            rfl

/-! ## All lines -/

/-- Reads line after line to the end of the stream, and keeps the last one. -/
def lastOfLines (last : Option Bytes) (input : Input) : Except ReadFailure (Option Bytes) × Input :=
  match _ : readLine input with
  | (.error f, unread) => (.error f, unread)
  | (.ok [], unread) => (.ok last, unread)
  | (.ok (b :: line), unread) => lastOfLines (some (b :: line)) unread
termination_by input.bytes.length
decreasing_by
  have hbytes := (takes_of_readLine ‹_›).bytes_eq
  simp only [hbytes, List.length_append, List.length_cons]
  omega

variable {last : Option Bytes}

theorem lastOfLines_of_error (h : readLine input = (.error f, unread)) :
    lastOfLines last input = (.error f, unread) := by
  rw [lastOfLines]
  split <;> simp_all

theorem lastOfLines_of_nil (h : readLine input = (.ok [], unread)) :
    lastOfLines last input = (.ok last, unread) := by
  rw [lastOfLines]
  split <;> simp_all

theorem lastOfLines_of_line (h : readLine input = (.ok line, unread)) (hline : line ≠ []) :
    lastOfLines last input = lastOfLines (some line) unread := by
  rw [lastOfLines]
  split <;> simp_all

/-- Between two lines the cursor holds the line that the loop keeps, and from there on both find the
same. -/
theorem readWith_eq_lastOfLines (ended : Option Bytes) (input : Input) :
    (input.readWith LineCursor.step ⟨ended, []⟩).map (Except.map LineCursor.lastLine) id =
      (lastOfLines (ended.map fun l => l.reverse ++ [newline]) input).map
        (Except.map (Option.map withoutEnding)) id := by
  generalize hlast : ended.map (fun l => l.reverse ++ [newline]) = last
  induction last, input using lastOfLines.induct generalizing ended with
  | case1 last input f unread h =>
      rw [lastOfLines_of_error h, readWith_of_readLine_error h]
      rfl
  | case2 last input unread h =>
      have htakes := takes_of_readLine h
      have hunread : unread = [] := htakes.shape.elim (fun ⟨l, _, hl⟩ => by simp at hl) (·.2)
      subst hunread hlast
      rw [lastOfLines_of_nil h, htakes.reading]
      cases ended with
      | none => rfl
      | some l => simp [readWith, LineCursor.lastLine, withoutEnding_line, Except.map]
  | case3 last input b line unread h ih =>
      have htakes := takes_of_readLine h
      rw [lastOfLines_of_line h (List.cons_ne_nil b line), htakes.reading]
      rcases htakes.shape with ⟨l, hl, hline⟩ | ⟨hline, rfl⟩
      · rw [hline, LineCursor.foldl_step_line hl, List.append_nil]
        rw [hline] at ih
        exact ih (some l.reverse) (by simp)
      · rw [LineCursor.foldl_step hline, lastOfLines_of_nil rfl]
        simp [readWith, LineCursor.lastLine, Except.map, withoutEnding_of_not_mem hline]

end Input

/-- **Reading line by line finds the last line.** It meets the same failures and leaves the same
events. -/
theorem lastLine_eq_lastOfLines (input : Input) :
    lastLine input =
      (input.lastOfLines none).map (Except.map (Option.map withoutEnding)) id :=
  Input.readWith_eq_lastOfLines none input

end LastMatch
