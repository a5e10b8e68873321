import LastMatch.Proofs.Reading
import LastMatch.Proofs.Writing

/-!
# What an opening does

One lemma for each way an opening can go: the editor is not resolved, the input fails, or a path is
selected and the purpose is served with it. And what becomes of a launch, by whether the system can
be handed its words at all.
-/

namespace LastMatch

/-! ## Launching -/

/-- The error for a program that the system did not start. -/
def LaunchError.ofStart (program : String) : StartFailure → LaunchError
  | .noSuchFile => .notFound program
  | .refused reason => .notStarted program reason

namespace Editor

/-- With a NUL in a word the system is not asked. -/
theorem launch_of_nul (host : Host) {e : Editor} {path : Bytes} (h : ∃ w ∈ e.argv path, 0 ∈ w) :
    e.launch host path = .error (.notStarted e.program nulReason) := by
  have hany : (e.argv path).any (0 ∈ ·) = true := by simpa using h
  rw [launch, if_pos hany]

/-- Without a NUL the outcome is what the system makes of exactly these words. -/
theorem launch_of_no_nul (host : Host) {e : Editor} {path : Bytes}
    (h : ∀ w ∈ e.argv path, 0 ∉ w) :
    e.launch host path = (host.start (e.argv path)).mapError (LaunchError.ofStart e.program) := by
  have hany : ¬ (e.argv path).any (0 ∈ ·) = true := by simpa using h
  rw [launch, if_neg hany]
  cases host.start (e.argv path) with
  | ok outcome => rfl
  | error f => cases f <;> rfl

end Editor

/-! ## Runs -/

namespace Opening

variable {host : Host} {o : Opening} {input : Input}

theorem run_of_purpose_error {e : LaunchError} (h : o.purpose = .error e) :
    o.run host input = { actions := [], result := .error (.launch e), unread := input } := by
  rw [run, h]

theorem run_of_read_error {p : Purpose} {f : ReadFailure} {rest : Input}
    (hp : o.purpose = .ok p) (hs : Selection.read input = (.error f, rest)) :
    o.run host input = { actions := [], result := .error (.read f), unread := rest } := by
  rw [run, hp, hs]

theorem run_of_read {p : Purpose} {s : Selection} {rest : Input} (hp : o.purpose = .ok p)
    (hs : Selection.read input = (.ok s, rest)) :
    o.run host input =
      { actions := o.warnings s ++ (p.serve host s.path).1
        result := (p.serve host s.path).2
        unread := rest } := by
  rw [run, hp, hs]

/-- Warnings go to standard error: nothing is written and nothing started with them. -/
theorem warnings_eq (o : Opening) (s : Selection) :
    ∃ ws : List Warning, o.warnings s = ws.map .warned := by
  unfold warnings
  split
  · exact ⟨[], rfl⟩
  · exact ⟨_, rfl⟩

end Opening

namespace Record

theorem written_wrote (bytes : Bytes) (result : Except OpenError Outcome) (unread : Input) :
    written ⟨[.wrote bytes], result, unread⟩ = bytes :=
  List.append_nil bytes

theorem written_ofTaken (bytes : Bytes) (result : Except OpenError Outcome) (unread : Input) :
    written ⟨Action.ofTaken bytes, result, unread⟩ = bytes := by
  cases bytes with
  | nil => rfl
  | cons b bytes => exact written_wrote ..

theorem attempts_ofTaken (bytes : Bytes) (result : Except OpenError Outcome) (unread : Input) :
    attempts ⟨Action.ofTaken bytes, result, unread⟩ = [] := by
  cases bytes <;> rfl

theorem warnings_ofTaken (bytes : Bytes) (result : Except OpenError Outcome) (unread : Input) :
    warnings ⟨Action.ofTaken bytes, result, unread⟩ = [] := by
  cases bytes <;> rfl

theorem written_warned_append (ws : List Warning) (actions : List Action)
    (result : Except OpenError Outcome) (unread : Input) :
    written ⟨ws.map .warned ++ actions, result, unread⟩ = written ⟨actions, result, unread⟩ := by
  simp [written, List.flatMap_append, List.flatMap_map]

theorem attempts_warned_append (ws : List Warning) (actions : List Action)
    (result : Except OpenError Outcome) (unread : Input) :
    attempts ⟨ws.map .warned ++ actions, result, unread⟩ = attempts ⟨actions, result, unread⟩ := by
  simp [attempts, Action.attempts, List.filterMap_append, List.filterMap_map]

end Record

/-! ## Modes -/

namespace Opening

variable {host : Host} {command : Option String} {input : Input}

theorem written_warnings_append (o : Opening) (s : Selection) (actions : List Action)
    (result : Except OpenError Outcome) (unread : Input) :
    Record.written ⟨o.warnings s ++ actions, result, unread⟩ =
      Record.written ⟨actions, result, unread⟩ := by
  obtain ⟨ws, hws⟩ := o.warnings_eq s
  rw [hws, Record.written_warned_append]

theorem attempts_warnings_append (o : Opening) (s : Selection) (actions : List Action)
    (result : Except OpenError Outcome) (unread : Input) :
    Record.attempts ⟨o.warnings s ++ actions, result, unread⟩ =
      Record.attempts ⟨actions, result, unread⟩ := by
  obtain ⟨ws, hws⟩ := o.warnings_eq s
  rw [hws, Record.attempts_warned_append]

theorem purpose_of_parse_error {e : LaunchError} (quiet : Bool)
    (h : Editor.parse command = .error e) :
    purpose ⟨command, .dryRun, quiet⟩ = .error e ∧
      purpose ⟨command, .launch, quiet⟩ = .error e := by
  simp only [purpose, h]
  exact ⟨rfl, rfl⟩

theorem purpose_of_parse_ok {editor : Editor} (quiet : Bool)
    (h : Editor.parse command = .ok editor) :
    purpose ⟨command, .dryRun, quiet⟩ = .ok (.display editor) ∧
      purpose ⟨command, .launch, quiet⟩ = .ok (.launch editor) := by
  simp only [purpose, h]
  exact ⟨rfl, rfl⟩

/-- Where standard output takes writes, a run that writes a line writes that line only. -/
theorem written_of_writeLine {o : Opening} {p : Purpose} {s : Selection} {rest : Input}
    {line : Bytes} (hout : host.stdoutFault = none) (hp : o.purpose = .ok p)
    (hs : Selection.read input = (.ok s, rest))
    (hline : p.serve host s.path = writeLine host line) :
    (o.run host input).written = asLine line := by
  rw [run_of_read hp hs, written_warnings_append, hline,
    writeLine_of_takes (host.takes_of_no_fault hout _)]
  exact Record.written_wrote ..

/-- A launch attempts to start the editor's words with the path, once. -/
theorem attempts_of_launch {o : Opening} {editor : Editor} {s : Selection} {rest : Input}
    (hp : o.purpose = .ok (.launch editor)) (hs : Selection.read input = (.ok s, rest)) :
    (o.run host input).attempts = [editor.argv s.path] := by
  rw [run_of_read hp hs, attempts_warnings_append]
  rfl

theorem result_of_launch {o : Opening} {editor : Editor} {s : Selection} {rest : Input}
    (hp : o.purpose = .ok (.launch editor)) (hs : Selection.read input = (.ok s, rest)) :
    (o.run host input).result = (editor.launch host s.path).mapError .launch := by
  rw [run_of_read hp hs]
  rfl

end Opening

end LastMatch
