import LastMatch.Proofs.Warnings

/-!
# The order of failures

An opening can fail at four points: the editor is not resolved, the input cannot be read, standard
output does not take the line, the editor is not started. They come in this order, and each ends the
run. A run that fails has written nothing, or the part of its line that standard output still took.

What a run reads and prints is said of the bytes of the input here: `HoldsPath` gives the path,
`Warns` the warning.
-/

namespace LastMatch

open Utf8

/-- Standard output takes everything that is written, or nothing. -/
def Host.AllOrNothing (host : Host) : Prop := ∀ f, host.stdoutFault = some f → f.room = 0

namespace Opening

variable {host : Host} {o : Opening} {input : Input} {path line : Bytes} {r : Record}

/-- The warnings of a run, which a quiet one leaves out. -/
def Gives (o : Opening) (input : Input) (ws : List Warning) : Prop :=
  if o.quiet then ws = [] else o.Warns input ws

/-- Where the path can be selected, the run warns as it should. -/
theorem warnings_of_resolves (hres : o.Resolves) (hread : input.Endures) :
    ∃ ws, o.Gives input ws ∧ o.warnings (.ofBytes input.bytes) = ws.map .warned := by
  rw [warnings]
  by_cases hquiet : o.quiet = true
  · exact ⟨[], by rw [Gives, if_pos hquiet], by rw [if_pos hquiet]; rfl⟩
  · refine ⟨(Warning.of o.mode (.ofBytes input.bytes)).toList, ?_, if_neg hquiet⟩
    rw [Gives, if_neg hquiet]
    exact (warns_iff_of_resolves hres hread).mpr rfl

/-! ## How a run ends -/

/-- Without a launch a run succeeds with its line written, and only so. -/
theorem Course.succeeds {out : Outcome} (h : Course host o input r) (hm : o.mode ≠ .launch)
    (hout : r.result = .ok out) :
    out = ⟨0, [], []⟩ ∧ input.Endures ∧
      ∃ path line, HoldsPath input.bytes path ∧ o.Prints path line ∧ host.Takes (asLine line) ∧
        r.written = line ++ [newline] := by
  cases h with
  | unresolved | unreadable | cutOff => cases hout
  | launched hmode => exact absurd hmode hm
  | @printed s rest line hs hline htakes =>
      cases hout
      obtain ⟨hread, rfl, rfl⟩ := Selection.read_eq_ok_iff.mp hs
      refine ⟨rfl, hread, _, line, holdsPath_iff.mpr rfl, hline, htakes, ?_⟩
      rw [written_warnings_append, Record.written_wrote, asLine]

/-- A run that fails has warned at most, and attempted a launch. It has written nothing, unless its
line was cut off. -/
theorem Course.fails {e : OpenError} (h : Course host o input r) (he : r.result = .error e) :
    (r.written ≠ [] → ∃ f path line, host.stdoutFault = some f ∧ e = .write f.reason ∧
      HoldsPath input.bytes path ∧ o.Prints path line ∧ f.room ≤ line.length ∧
        r.written = line.take f.room) ∧
      ∃ ws : List Warning, ws.length ≤ 1 ∧ (o.quiet = true → ws = []) ∧
        (r.actions = ws.map .warned ++ Action.ofTaken r.written ∨
          o.mode = .launch ∧ ∃ argv, r.actions = ws.map .warned ++ [.attempted argv]) := by
  cases h with
  | unresolved | unreadable =>
      exact ⟨fun hne => absurd rfl hne, [], Nat.zero_le 1, fun _ => rfl, .inl rfl⟩
  | @cutOff s rest line f hs hline hf hroom =>
      cases he
      obtain ⟨ws, hws, hlength, hquiet⟩ := o.exists_warnings s
      obtain ⟨-, rfl, rfl⟩ := Selection.read_eq_ok_iff.mp hs
      have hle : f.room ≤ line.length := by
        rw [asLine, List.length_append] at hroom
        exact Nat.le_of_lt_succ hroom
      rw [written_warnings_append, Record.written_ofTaken, hws, asLine,
        List.take_append_of_le_length hle]
      exact ⟨fun _ => ⟨f, _, line, hf, rfl, holdsPath_iff.mpr rfl, hline, hle, rfl⟩,
        ws, hlength, hquiet, .inl rfl⟩
  | printed => cases he
  | @launched s rest editor hm =>
      obtain ⟨ws, hws, hlength, hquiet⟩ := o.exists_warnings s
      rw [written_warnings_append, hws]
      exact ⟨fun hne => absurd rfl hne, ws, hlength, hquiet, .inr ⟨hm, _, rfl⟩⟩

/-! ## The order -/

/-- **Failures come in a fixed order and leave nothing half done.** A wrong editor command comes
before reading, except where the path is printed and the command does not matter. A failure to read
comes before the warning. Then the line is written and the run succeeds, exactly if standard output
takes the line. If it does not, the warning is given, and what standard output has room for is
written: nothing, where it takes nothing. No run that fails has written anything else. -/
theorem failures_in_order (host : Host) (o : Opening) (input : Input) :
    (∀ e, o.mode ≠ .print → Editor.parse o.editor = .error e →
      o.run host input = { actions := [], result := .error (.launch e), unread := input }) ∧
    (o.mode = .print →
      ∀ command, Opening.run host { o with editor := command } input = o.run host input) ∧
    (∀ f rest, o.Resolves → input.BreaksAt f rest →
      o.run host input = { actions := [], result := .error (.read f), unread := rest }) ∧
    (o.mode ≠ .launch →
      ((o.run host input).result = .ok ⟨0, [], []⟩ ↔
        o.Resolves ∧ input.Endures ∧
          ∃ path line, HoldsPath input.bytes path ∧ o.Prints path line ∧
            host.Takes (line ++ [newline])) ∧
      ∀ out, (o.run host input).result = .ok out → out = ⟨0, [], []⟩ ∧
        ∃ path line, HoldsPath input.bytes path ∧ o.Prints path line ∧
          (o.run host input).written = line ++ [newline]) ∧
    (o.mode ≠ .launch → o.Resolves → input.Endures →
      ∀ f, host.stdoutFault = some f →
        ∃ ws path line, o.Gives input ws ∧ HoldsPath input.bytes path ∧ o.Prints path line ∧
          (f.room ≤ line.length →
            o.run host input =
              { actions := ws.map .warned ++ Action.ofTaken (line.take f.room)
                result := .error (.write f.reason)
                unread := [] } ∧
            ": ".intercalate (OpenError.write f.reason).messages =
              "Failed to write to stdout: " ++ f.reason)) ∧
    ∀ e, (o.run host input).result = .error e →
      (host.AllOrNothing → (o.run host input).written = []) ∧
      ((o.run host input).written ≠ [] →
        ∃ f path line, host.stdoutFault = some f ∧ e = .write f.reason ∧
          HoldsPath input.bytes path ∧ o.Prints path line ∧ f.room ≤ line.length ∧
            (o.run host input).written = line.take f.room) ∧
      ∃ ws : List Warning, ws.length ≤ 1 ∧ (o.quiet = true → ws = []) ∧
        ((o.run host input).actions = ws.map .warned ++ Action.ofTaken (o.run host input).written ∨
          o.mode = .launch ∧ ∃ argv,
            (o.run host input).actions = ws.map .warned ++ [.attempted argv]) := by
  have hcourse := course_run host o input
  refine ⟨?_, ?_, ?_, ?_, ?_, ?_⟩
  · intro e hm he
    exact run_of_purpose_error (purpose_of_unresolved hm he)
  · intro hm command
    simp only [run, purpose, hm, warnings]
  · intro f rest hres hbreaks
    exact run_of_unreadable hres (Selection.read_of_breaksAt hbreaks)
  · intro hm
    refine ⟨⟨?_, ?_⟩, ?_⟩
    · intro hout
      obtain ⟨-, hread, path, line, hpath, hline, htakes, -⟩ := hcourse.succeeds hm hout
      exact ⟨hline.resolves, hread, path, line, hpath, hline, htakes⟩
    · rintro ⟨-, hread, path, line, hpath, hline, htakes⟩
      rw [holdsPath_iff.mp hpath] at hline
      rw [run_of_printed hline (Selection.read_of_endures hread) htakes]
    · intro out hout
      obtain ⟨hcode, -, path, line, hpath, hline, -, hwritten⟩ := hcourse.succeeds hm hout
      exact ⟨hcode, path, line, hpath, hline, hwritten⟩
  · intro hm hres hread f hf
    obtain ⟨ws, hgives, hws⟩ := warnings_of_resolves hres hread
    obtain ⟨line, hline⟩ := hres.exists_prints hm (Selection.ofBytes input.bytes).path
    refine ⟨ws, _, line, hgives, holdsPath_iff.mpr rfl, hline, fun hle => ⟨?_, rfl⟩⟩
    have hroom : f.room < (asLine line).length := by
      rw [asLine, List.length_append]
      exact Nat.lt_succ_of_le hle
    rw [run_of_cutOff hline (Selection.read_of_endures hread) hf hroom, hws, asLine,
      List.take_append_of_le_length hle]
  · intro e he
    obtain ⟨hpart, hactions⟩ := hcourse.fails he
    refine ⟨fun hall => ?_, hpart, hactions⟩
    refine Decidable.byContradiction fun hne => ?_
    obtain ⟨f, path, line, hf, -, -, -, -, hwritten⟩ := hpart hne
    rw [hall f hf, List.take_zero] at hwritten
    exact hne hwritten

/-- One path, printed and shown, on standard output that takes everything, only three bytes, or
nothing; and an input that fails behind its first line, where an open quotation mark comes before the
failed read, and that before the write. -/
theorem failures_in_order_full :
    let reason := "No space left on device (os error 28)"
    let host (fault : Option StdoutFault) : Host := ⟨fault, fun _ => .error .noSuchFile⟩
    let full := host (some ⟨0, reason⟩)
    let gone : ReadFailure := ⟨.brokenPipe, "gone"⟩
    let broken : Input := [.data (encode "a:1\n"), .failure gone]
    let stream : Input :=
      [.data (encode "x:9\nsrc/a"), .failure ⟨.interrupted, "again"⟩, .data (encode " b.rs:3:y\r\n")]
    let unclosed : Opening := ⟨some "vi '", .dryRun, false⟩
    let closed : Opening := ⟨some "vi -n", .dryRun, false⟩
    let printing : Opening := ⟨some "vi '", .print, false⟩
    unclosed.run full broken =
        { actions := [], result := .error (.launch (.invalidSyntax "vi '")), unread := broken } ∧
      closed.run full broken = { actions := [], result := .error (.read gone), unread := [] } ∧
      (printing.run (host none) stream).result = .ok ⟨0, [], []⟩ ∧
      (printing.run (host none) stream).written = encode "src/a b.rs\n" ∧
      (closed.run (host none) stream).result = .ok ⟨0, [], []⟩ ∧
      (closed.run (host none) stream).written = encode "vi -n 'src/a b.rs'\n" ∧
      printing.run full [] =
        { actions := [.warned .emptyPath], result := .error (.write reason), unread := [] } ∧
      (printing.run full []).written = [] ∧
      (printing.run (host (some ⟨3, reason⟩)) stream).written = encode "src" := by
  intro reason host full gone broken stream unclosed closed printing
  have hread : stream.Endures := by decide
  have hunclosed : Editor.parse unclosed.editor = .error (.invalidSyntax "vi '") := rfl
  have hclosed : closed.Resolves := .inr ⟨⟨"vi", ["-n"], by decide⟩, rfl⟩
  have hcut : EndsInLine stream.bytes (encode "x:9\n") (encode "src/a b.rs:3:y\r") [newline] :=
    ⟨by decide, .inr ⟨encode "x:9", rfl⟩, by decide, .inl rfl⟩
  have hpath : HoldsPath stream.bytes (encode "src/a b.rs") :=
    .beforeDelimiter (r := encode "3:y") hcut (by decide) (by decide)
  have hprint : printing.Prints (encode "src/a b.rs") (encode "src/a b.rs") := .path rfl
  have hshow : closed.Prints (encode "src/a b.rs") (encode "vi -n 'src/a b.rs'") :=
    .command (e := ⟨"vi", ["-n"], by decide⟩) rfl rfl
  have htakes : ∀ bytes, (host none).Takes bytes := (host none).takes_of_no_fault rfl
  obtain ⟨hparse, -⟩ := failures_in_order full unclosed broken
  obtain ⟨-, -, hbreaks, -⟩ := failures_in_order full closed broken
  obtain ⟨-, -, -, hprinted, -⟩ := failures_in_order (host none) printing stream
  obtain ⟨-, -, -, hshown, -⟩ := failures_in_order (host none) closed stream
  obtain ⟨-, -, -, -, hrefused, hnothing⟩ := failures_in_order full printing []
  obtain ⟨-, -, -, -, -, hpart⟩ := failures_in_order (host (some ⟨3, reason⟩)) printing stream
  have hprintedOk := (hprinted (by decide)).1.mpr ⟨.inl rfl, hread, _, _, hpath, hprint, htakes _⟩
  have hshownOk := (hshown (by decide)).1.mpr ⟨hclosed, hread, _, _, hpath, hshow, htakes _⟩
  obtain ⟨-, _, _, hpath', hprint', hwritten⟩ := (hprinted (by decide)).2 _ hprintedOk
  obtain rfl := hpath.unique hpath'
  obtain rfl := hprint.unique hprint'
  obtain ⟨-, _, _, hpath', hshow', hwritten'⟩ := (hshown (by decide)).2 _ hshownOk
  obtain rfl := hpath.unique hpath'
  obtain rfl := hshow.unique hshow'
  obtain ⟨ws, _, _, hgives, -, -, hfails⟩ :=
    hrefused (by decide) (.inl rfl) Input.endures_nil ⟨0, reason⟩ rfl
  obtain ⟨hempty, -⟩ := hfails (Nat.zero_le _)
  obtain rfl : ws = [.emptyPath] := (warns_iff_of_resolves (.inl rfl) Input.endures_nil).mp hgives
  obtain ⟨f, _, _, hf, -, hpath', hprint', -, htaken⟩ :=
    (hpart (.write reason) rfl).2.1 (by decide)
  obtain rfl := hpath.unique hpath'
  obtain rfl := hprint.unique hprint'
  cases hf
  refine ⟨hparse _ (by decide) hunclosed, hbreaks gone [] hclosed ⟨[.data (encode "a:1\n")], ?_⟩,
    hprintedOk, hwritten, hshownOk, hwritten', hempty, ?_, htaken⟩
  · exact ⟨by decide, by decide, rfl⟩
  · refine (hnothing (.write reason) (by rw [hempty])).1 fun f hf => ?_
    cases hf
    rfl

end Opening

end LastMatch
