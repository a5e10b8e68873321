import LastMatch.Proofs.Launches
import LastMatch.Proofs.LastLines

/-!
# Quiet runs

A quiet opening leaves out the warning and does everything else as it would be done with it. The
warning comes first, so with it a run has one more action at its start, and one more line of
standard error before all others.

* `Warning.Due` says which warning the bytes of a stream call for.
* `Opening.Warns` says when it is given: not where the editor is not resolved or the input breaks
  off.
* `Opening.quiet_only_omits_warning` compares the two runs.
-/

namespace LastMatch

open Utf8

variable {host : Host} {o : Opening} {input : Input} {ws : List Warning}

/-! ## The warning that is due -/

namespace Warning

variable {mode : Mode} {stream : Bytes} {w : Warning}

/-- What is doubtful about a stream: it is empty, which is a matter of the mode as well, or its last
line has no delimiter. -/
inductive Due (mode : Mode) (stream : Bytes) : Warning → Prop where
  | opensEmptyPath : stream = [] → mode = .launch → Due mode stream .opensEmptyPath
  | emptyPath : stream = [] → mode ≠ .launch → Due mode stream .emptyPath
  | noDelimiter {before line ending : Bytes} : EndsInLine stream before line ending →
      delimiter ∉ lineText line ending → Due mode stream .noDelimiter

/-- The selection calls for what is due by the bytes it was made from. -/
theorem due_iff : w.Due mode stream ↔ Warning.of mode (.ofBytes stream) = some w := by
  constructor
  · intro h
    cases h with
    | opensEmptyPath hnil hmode =>
        rw [Selection.ofBytes_eq_empty_iff.mpr hnil, Warning.of, if_pos hmode]
    | emptyPath hnil hmode =>
        rw [Selection.ofBytes_eq_empty_iff.mpr hnil, Warning.of, if_neg hmode]
    | noDelimiter hcut hline =>
        rw [Selection.ofBytes_of_endsInLine hcut, Selection.ofLine_eq_bare_iff.mpr ⟨rfl, hline⟩,
          Warning.of]
  · intro h
    by_cases hnil : stream = []
    · rw [Selection.ofBytes_eq_empty_iff.mpr hnil, Warning.of] at h
      split at h
      · rename_i hmode
        cases h
        exact .opensEmptyPath hnil hmode
      · rename_i hmode
        cases h
        exact .emptyPath hnil hmode
    · obtain ⟨before, line, ending, hcut⟩ := exists_endsInLine hnil
      rw [Selection.ofBytes_of_endsInLine hcut, Selection.ofLine] at h
      split at h
      · cases h
      · rename_i hline
        cases h
        exact .noDelimiter hcut hline

/-- On an empty stream, the warning speaks of an editor exactly if one is to be launched. -/
theorem Due.message_eq_iff (h : w.Due mode []) :
    w.message = "no input on stdin; opening editor with an empty path" ↔ mode = .launch := by
  replace h : Warning.of mode .empty = some w := due_iff.mp h
  rw [Warning.of] at h
  split at h
  · rename_i hmode
    cases h
    exact iff_of_true rfl hmode
  · rename_i hmode
    cases h
    exact iff_of_false (by decide) hmode

/-- A warning fits on one line. -/
theorem newline_not_mem_message (w : Warning) : '\n' ∉ w.message.toList := by
  cases w <;> decide

end Warning

/-! ## Records with warnings before them -/

namespace Record

/-- The record of a run that gives some warnings and then goes this way. -/
def warnedBy (r : Record) (ws : List Warning) : Record :=
  { r with actions := ws.map .warned ++ r.actions }

theorem written_warnedBy (r : Record) (ws : List Warning) :
    (r.warnedBy ws).written = r.written :=
  written_warned_append ws r.actions r.result r.unread

theorem attempts_warnedBy (r : Record) (ws : List Warning) :
    (r.warnedBy ws).attempts = r.attempts :=
  attempts_warned_append ws r.actions r.result r.unread

theorem warnings_warnedBy (r : Record) (ws : List Warning) :
    (r.warnedBy ws).warnings = ws ++ r.warnings := by
  unfold warnings warnedBy
  rw [List.filterMap_append, List.filterMap_map]
  exact congrArg (· ++ _) List.filterMap_some

theorem warningLines_warnedBy (colour : Bool) (r : Record) (ws : List Warning) :
    Run.warningLines colour (r.warnedBy ws) =
      (ws.flatMap fun w => encode (Diagnostic.warningLine colour w.message)) ++
        Run.warningLines colour r := by
  rw [Run.warningLines, warnings_warnedBy, List.flatMap_append]
  rfl

/-- Warnings come before all else on standard error, and change nothing else of what a run leaves
behind. -/
theorem outcomeOf_warnedBy (colour : Bool) (r : Record) (ws : List Warning)
    (hr : r.warnings = []) :
    Run.outcomeOf colour (r.warnedBy ws) =
      { Run.outcomeOf colour r with
        stderr := Run.warningLines colour (r.warnedBy ws) ++ (Run.outcomeOf colour r).stderr } := by
  have hnone : Run.warningLines colour r = [] := by
    rw [Run.warningLines, hr]
    rfl
  have hresult : (r.warnedBy ws).result = r.result := rfl
  unfold Run.outcomeOf
  rw [hresult, written_warnedBy, hnone]
  cases r.result <;> rfl

end Record

/-! ## The two runs -/

namespace Opening

/-- The warnings of a run that is not quiet: the one that is due, if the editor is resolved and the
input is read to its end. -/
inductive Warns (o : Opening) (input : Input) : List Warning → Prop where
  | due {w : Warning} : o.Resolves → input.Endures → w.Due o.mode input.bytes → Warns o input [w]
  | fine : (∀ w : Warning, ¬ w.Due o.mode input.bytes) → Warns o input []
  | stopped : ¬ (o.Resolves ∧ input.Endures) → Warns o input []

/-- Where nothing stops the run before, its warning is read off the selection. -/
theorem warns_iff_of_resolves (hres : o.Resolves) (hread : input.Endures) :
    o.Warns input ws ↔ ws = (Warning.of o.mode (.ofBytes input.bytes)).toList := by
  have hdue : ∀ w : Warning, w.Due o.mode input.bytes ↔
      Warning.of o.mode (.ofBytes input.bytes) = some w := fun w => Warning.due_iff
  constructor
  · intro h
    cases h with
    | due _ _ hw => rw [(hdue _).mp hw, Option.toList_some]
    | fine hnone =>
        simp only [hdue] at hnone
        rw [Option.eq_none_iff_forall_ne_some.mpr hnone, Option.toList_none]
    | stopped hstop => exact absurd ⟨hres, hread⟩ hstop
  · rintro rfl
    cases hof : Warning.of o.mode (.ofBytes input.bytes) with
    | none =>
        refine .fine fun w hw => ?_
        rw [hdue, hof] at hw
        cases hw
    | some w => exact .due hres hread ((hdue w).mpr hof)

theorem warns_iff_of_stopped (hstop : ¬ (o.Resolves ∧ input.Endures)) :
    o.Warns input ws ↔ ws = [] := by
  constructor
  · intro h
    cases h with
    | due hres hread _ => exact absurd ⟨hres, hread⟩ hstop
    | fine | stopped => rfl
  · rintro rfl
    exact .stopped hstop

/-- A quiet run gives no warning. -/
theorem warnings_run_quiet (host : Host) (o : Opening) (input : Input) :
    (Opening.run host { o with quiet := true } input).warnings = [] := by
  have hcourse := course_run host { o with quiet := true } input
  generalize Opening.run host { o with quiet := true } input = r at hcourse
  cases hcourse with
  | cutOff => exact Record.warnings_ofTaken ..
  | unresolved | unreadable | printed | launched => rfl

theorem purpose_of_not_resolves (h : ¬ o.Resolves) : ∃ e, o.purpose = .error e := by
  obtain ⟨hmode, hnone⟩ := not_or.mp h
  cases he : Editor.parse o.editor with
  | ok e => exact absurd ⟨e, he⟩ hnone
  | error e => exact ⟨e, purpose_of_unresolved hmode he⟩

/-- With a selection made, the two runs differ in the warning that it calls for. -/
theorem run_of_selected (host : Host) (hres : o.Resolves) (hread : input.Endures) :
    Opening.run host { o with quiet := false } input =
      (Opening.run host { o with quiet := true } input).warnedBy
        (Warning.of o.mode (.ofBytes input.bytes)).toList := by
  obtain ⟨p, hp⟩ := hres.exists_purpose
  have hpurpose : ∀ quiet, Opening.purpose { o with quiet } = .ok p := fun _ => hp
  have hs := Selection.read_of_endures hread
  rw [run_of_read (hpurpose false) hs, run_of_read (hpurpose true) hs]
  rfl

/-- Without one they are the same. -/
theorem run_of_stopped (host : Host) (hstop : ¬ (o.Resolves ∧ input.Endures)) :
    Opening.run host { o with quiet := false } input =
      Opening.run host { o with quiet := true } input := by
  by_cases hres : o.Resolves
  · obtain ⟨p, hp⟩ := hres.exists_purpose
    have hpurpose : ∀ quiet, Opening.purpose { o with quiet } = .ok p := fun _ => hp
    obtain ⟨f, rest, hbreaks⟩ :=
      input.endures_or_breaksAt.resolve_left fun hread => hstop ⟨hres, hread⟩
    have hs := Selection.read_of_breaksAt hbreaks
    rw [run_of_read_error (hpurpose false) hs, run_of_read_error (hpurpose true) hs]
  · obtain ⟨e, hp⟩ := purpose_of_not_resolves hres
    have hpurpose : ∀ quiet, Opening.purpose { o with quiet } = .error e := fun _ => hp
    rw [run_of_purpose_error (hpurpose false), run_of_purpose_error (hpurpose true)]

/-- A run that is not quiet is the quiet one with its warnings before it. -/
theorem exists_warns (host : Host) (o : Opening) (input : Input) :
    ∃ ws, (∀ ws', o.Warns input ws' ↔ ws' = ws) ∧
      Opening.run host { o with quiet := false } input =
        (Opening.run host { o with quiet := true } input).warnedBy ws := by
  by_cases h : o.Resolves ∧ input.Endures
  · exact ⟨_, fun ws' => warns_iff_of_resolves h.1 h.2, run_of_selected host h.1 h.2⟩
  · exact ⟨[], fun ws' => warns_iff_of_stopped h, run_of_stopped host h⟩

theorem Warns.message_eq_iff (h : o.Warns input ws) (hnil : input.bytes = []) :
    ∀ w ∈ ws, (w.message = "no input on stdin; opening editor with an empty path" ↔
      o.mode = .launch) := by
  cases h with
  | due _ _ hw =>
      intro w' hmem
      obtain rfl := List.mem_singleton.mp hmem
      rw [hnil] at hw
      exact hw.message_eq_iff
  | fine | stopped => simp

/-- **A quiet run omits the warning and nothing else.** It has the same result as the run that is
not quiet, the same output, the same attempts to start an editor, and leaves the same input unread.
The other run warns first, once at most, and exactly if a warning is due: its standard error, also
as part of the whole program's, has the line of the warning before all else. -/
theorem quiet_only_omits_warning (host : Host) (o : Opening) (input : Input) :
    let loud := Opening.run host { o with quiet := false } input
    let quiet := Opening.run host { o with quiet := true } input
    (quiet.result = loud.result ∧ quiet.written = loud.written ∧
      quiet.attempts = loud.attempts ∧ quiet.unread = loud.unread) ∧
    (∀ colour, Run.warningLines colour quiet = []) ∧
    ∃ ws : List Warning, (∀ ws', o.Warns input ws' ↔ ws' = ws) ∧
      loud.actions = ws.map .warned ++ quiet.actions ∧
      (∀ w, .warned w ∉ quiet.actions) ∧
      (∀ w ∈ ws, '\n' ∉ w.message.toList ∧ (input.bytes = [] →
        (w.message = "no input on stdin; opening editor with an empty path" ↔
          o.mode = .launch))) ∧
      (∀ colour, Run.warningLines colour loud = ws.flatMap fun w =>
        encode (Diagnostic.Label.warning.render colour ++ " " ++ w.message ++ "\n")) ∧
      ∀ commandLine env,
        let outcome := (Run.opening host ⟨commandLine, env, input⟩ { o with quiet := true }).outcome
        (Run.opening host ⟨commandLine, env, input⟩ { o with quiet := false }).outcome =
          { outcome with
            stderr := Run.warningLines (Colour.forDiagnostics env) loud ++ outcome.stderr } := by
  intro loud quiet
  obtain ⟨ws, hws, hloud⟩ := exists_warns host o input
  replace hloud : loud = quiet.warnedBy ws := hloud
  have hquiet : quiet.warnings = [] := warnings_run_quiet host o input
  have hlines : ∀ colour, Run.warningLines colour quiet = [] := by
    intro colour
    rw [Run.warningLines, hquiet]
    rfl
  refine ⟨?_, hlines, ws, hws, ?_, ?_, ?_, ?_, ?_⟩
  · rw [hloud, Record.written_warnedBy, Record.attempts_warnedBy]
    exact ⟨rfl, rfl, rfl, rfl⟩
  · rw [hloud]
    rfl
  · intro w hmem
    have hw : w ∈ quiet.warnings := List.mem_filterMap.mpr ⟨_, hmem, rfl⟩
    rw [hquiet] at hw
    cases hw
  · intro w hw
    exact ⟨w.newline_not_mem_message, fun hnil => ((hws ws).mpr rfl).message_eq_iff hnil w hw⟩
  · intro colour
    rw [hloud, Record.warningLines_warnedBy, hlines, List.append_nil]
    rfl
  · intro commandLine env
    show Run.outcomeOf _ loud = _
    rw [hloud]
    exact Record.outcomeOf_warnedBy _ quiet ws hquiet

/-- An empty stream, interrupted, and an editor that is missing: the warning comes before the
attempt to start it, and the quiet run has the attempt alone. -/
theorem quiet_only_omits_warning_empty :
    let host : Host := ⟨none, fun _ => .error .noSuchFile⟩
    let input : Input := [.data [], .failure ⟨.interrupted, "again"⟩]
    let o : Opening := ⟨some "vi -n", .launch, true⟩
    let loud := Opening.run host { o with quiet := false } input
    let quiet := Opening.run host { o with quiet := true } input
    o.Warns input [.opensEmptyPath] ∧
      quiet.actions = [.attempted (["vi", "-n", ""].map encode)] ∧
      loud.actions = .warned .opensEmptyPath :: quiet.actions ∧
      quiet.result = .error (.launch (.notFound "vi")) ∧ quiet.result = loud.result ∧
      Run.warningLines false quiet = [] ∧
      Run.warningLines false loud =
        encode "warning: no input on stdin; opening editor with an empty path\n" := by
  intro host input o loud quiet
  have hwarns : o.Warns input [.opensEmptyPath] :=
    .due (.inr ⟨⟨"vi", ["-n"], by decide⟩, rfl⟩) (by decide) (.opensEmptyPath rfl rfl)
  obtain ⟨⟨hresult, -⟩, hquiet, ws, hws, hactions, -, -, hlines, -⟩ :=
    quiet_only_omits_warning host o input
  obtain rfl := (hws _).mp hwarns
  exact ⟨hwarns, rfl, hactions, rfl, hresult, hquiet false, hlines false⟩

end Opening

end LastMatch
