import LastMatch.Proofs.Lines
import LastMatch.Proofs.Openings

/-!
# Streams are read as their bytes

How a stream is cut into pieces and how often it is interrupted cannot be seen in what is made of
it: `lastLine`, `Selection.read` and `Opening.run` give what they give for all the bytes in one
piece, and use up every event. The first other failure is their result, with its kind and its text,
and the events behind it are left.
-/

namespace LastMatch

open Utf8

variable {input : Input}

namespace Input

/-- All the bytes of the stream, in one piece. -/
def joined (input : Input) : Input := [.data input.bytes]

theorem endures_joined (input : Input) : input.joined.Endures :=
  endures_data_cons.mpr endures_nil

theorem bytes_joined (input : Input) : input.joined.bytes = input.bytes := by
  simp [joined, bytes]

end Input

theorem lastLine_joined (input : Input) :
    lastLine input.joined = (.ok (lastLineOf input.bytes), []) := by
  rw [lastLine_of_endures input.endures_joined, input.bytes_joined]

theorem Selection.read_joined (input : Input) :
    Selection.read input.joined = (.ok (.ofBytes input.bytes), []) := by
  rw [read_of_endures input.endures_joined, input.bytes_joined]

theorem Opening.run_joined {host : Host} {o : Opening} {p : Purpose} (hp : o.purpose = .ok p)
    (h : input.Endures) : o.run host input = o.run host input.joined := by
  rw [run_of_read hp (Selection.read_of_endures h), run_of_read hp (Selection.read_joined input)]

/-- **A stream is read as its bytes, and to its end.** Line by line or byte by byte, the reading is
the same. If all failures are interruptions, it gives what the bytes in one piece give, and no event
is left, for an opening too as soon as its editor is resolved. Otherwise it gives the first failure
that is not an interruption, and the events behind that are left. -/
theorem stream_read_as_bytes (input : Input) :
    lastLine input = (input.lastOfLines none).map (Except.map (Option.map withoutEnding)) id ∧
    (input.Endures →
      (∃ line, lastLine input.joined = (.ok line, []) ∧ lastLine input = (.ok line, [])) ∧
      (∃ s, Selection.read input.joined = (.ok s, []) ∧ Selection.read input = (.ok s, [])) ∧
      ∀ (host : Host) (o : Opening) (p : Purpose), o.purpose = .ok p →
        (o.run host input).unread = [] ∧ o.run host input = o.run host input.joined) ∧
    (¬ input.Endures →
      ∃ f rest, input.BreaksAt f rest ∧
        lastLine input = (.error f, rest) ∧
        Selection.read input = (.error f, rest) ∧
        ": ".intercalate (OpenError.read f).messages = "Failed to read stdin: " ++ f.text ∧
        ∀ (host : Host) (o : Opening) (p : Purpose), o.purpose = .ok p →
          o.run host input = { actions := [], result := .error (.read f), unread := rest }) := by
  refine ⟨lastLine_eq_lastOfLines input, ?_, ?_⟩
  · intro h
    have hread := Selection.read_of_endures h
    refine ⟨⟨_, lastLine_joined input, lastLine_of_endures h⟩,
      ⟨_, Selection.read_joined input, hread⟩, ?_⟩
    intro host o p hp
    refine ⟨?_, Opening.run_joined hp h⟩
    rw [Opening.run_of_read hp hread]
  · intro h
    obtain ⟨f, rest, hbreaks⟩ := (Input.endures_or_breaksAt input).resolve_left h
    have hread := Selection.read_of_breaksAt hbreaks
    refine ⟨f, rest, hbreaks, lastLine_of_breaksAt hbreaks, hread, rfl, ?_⟩
    intro host o p hp
    exact Opening.run_of_read_error hp hread

/-- A path and a line ending that arrive in pieces, around an interruption; and a stream that fails
in its second line. -/
theorem stream_read_as_bytes_cut :
    let again : ReadEvent := .failure ⟨.interrupted, "again"⟩
    let late : ReadFailure := ⟨.timedOut, "late"⟩
    let cut : Input :=
      [.data (encode "a:1\nb.r"), again, .data [], .data (encode "s:2\r"), .data (encode "\n")]
    let broken : Input := [.data (encode "a:1\nb"), again, .failure late, .data (encode "c:1\n")]
    let o : Opening := ⟨some "vi", .dryRun, false⟩
    cut.Endures ∧ ¬ broken.Endures ∧ o.purpose = .ok (.display ⟨"vi", [], by decide⟩) ∧
      Selection.read cut = (.ok (.matched (encode "b.rs")), []) ∧
      ∀ host, (o.run host cut).unread = [] ∧
        o.run host broken =
          { actions := [], result := .error (.read late), unread := [.data (encode "c:1\n")] } := by
  intro again late cut broken o
  have hcut : cut.Endures := by simp [cut, again, Input.Endures]
  have hbroken : ¬ broken.Endures := by simp [broken, again, late, Input.Endures]
  have hp : o.purpose = .ok (.display ⟨"vi", [], by decide⟩) := rfl
  obtain ⟨_, ⟨s, hjoined, hread⟩, hrun⟩ := (stream_read_as_bytes cut).2.1 hcut
  obtain ⟨f, rest, _, hline, _, _, hfail⟩ := (stream_read_as_bytes broken).2.2 hbroken
  have hs : Selection.read cut.joined = (.ok (.matched (encode "b.rs")), []) := rfl
  have hf : lastLine broken = (.error late, [.data (encode "c:1\n")]) := rfl
  rw [hjoined] at hs
  rw [hline] at hf
  cases hf
  refine ⟨hcut, hbroken, hp, hread.trans hs, ?_⟩
  intro host
  exact ⟨(hrun host o _ hp).1, hfail host o _ hp⟩

end LastMatch
