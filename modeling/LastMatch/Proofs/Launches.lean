import LastMatch.Proofs.Courses
import LastMatch.Proofs.StandIn

/-!
# When an editor is started

A whole run starts at most one program, and it does so exactly if everything before went well: the
command line is a request to launch, the editor's command is resolved, and the input is read to its
end.

* `Invocation.Calls` says when that is, with the editor's command from the option or the variable.
* `run_congr_start` — a run depends on what the system starts only at the words that it attempted.
* `editor_started_when_called` puts together which runs attempt a start, what they hand to the
  system, and the exit codes of all runs.
-/

namespace LastMatch

open Utf8

variable {host : Host} {i : Invocation}

theorem Editor.exists_launch_error (host : Host) (e : Editor) (path : Bytes)
    (h : (∃ w ∈ e.argv path, 0 ∈ w) ∨ ∃ failure, host.start (e.argv path) = .error failure) :
    ∃ err, e.launch host path = .error err := by
  by_cases hnul : ∃ w ∈ e.argv path, 0 ∈ w
  · exact ⟨_, Editor.launch_of_nul host hnul⟩
  · obtain ⟨failure, hfailure⟩ := h.resolve_left hnul
    have hclean : ∀ w ∈ e.argv path, 0 ∉ w := fun w hw hmem => hnul ⟨w, hw, hmem⟩
    rw [Editor.launch_of_no_nul host hclean, hfailure]
    exact ⟨_, rfl⟩

/-- Words that cannot be handed to the system are not started, whatever the system does. -/
theorem Editor.launch_congr_start {start : List Bytes → Except StartFailure Outcome} {e : Editor}
    {path : Bytes}
    (h : (∀ w ∈ e.argv path, 0 ∉ w) → start (e.argv path) = host.start (e.argv path)) :
    e.launch { host with start } path = e.launch host path := by
  by_cases hnul : ∃ w ∈ e.argv path, 0 ∈ w
  · rw [Editor.launch_of_nul _ hnul, Editor.launch_of_nul _ hnul]
  · have hclean : ∀ w ∈ e.argv path, 0 ∉ w := fun w hw hmem => hnul ⟨w, hw, hmem⟩
    rw [Editor.launch_of_no_nul _ hclean, Editor.launch_of_no_nul _ hclean]
    exact congrArg _ (h hclean)

/-! ## Openings -/

namespace Opening

variable {o : Opening} {input : Input} {r : Record}

/-- The opening is to launch an editor, which is resolved, and the input is read to its end. -/
def Launches (o : Opening) (input : Input) : Prop :=
  o.mode = .launch ∧ (∃ e, Editor.parse o.editor = .ok e) ∧ input.Endures

/-- A line is to be printed, and nothing prevents that. -/
def Delivers (host : Host) (o : Opening) (input : Input) : Prop :=
  o.mode ≠ .launch ∧ o.Resolves ∧ input.Endures ∧
    ∀ line, o.Prints (Selection.ofBytes input.bytes).path line → host.Takes (asLine line)

theorem Prints.mode_ne_launch {path line : Bytes} (h : o.Prints path line) : o.mode ≠ .launch := by
  cases h with
  | path hm | command hm => simp [hm]

theorem Course.attempts_ne_nil_iff (h : Course host o input r) :
    r.attempts ≠ [] ↔ o.Launches input := by
  cases h with
  | unresolved hm he =>
      refine ⟨fun hne => absurd rfl hne, ?_⟩
      rintro ⟨-, ⟨e, hok⟩, -⟩
      cases he.symm.trans hok
  | unreadable hres hs =>
      refine ⟨fun hne => absurd rfl hne, ?_⟩
      rintro ⟨-, -, hread⟩
      cases (Selection.read_of_endures hread).symm.trans hs
  | cutOff hs hline =>
      rw [attempts_warnings_append, Record.attempts_ofTaken]
      exact ⟨fun hne => absurd rfl hne, fun hl => absurd hl.1 hline.mode_ne_launch⟩
  | printed hs hline =>
      rw [attempts_warnings_append]
      exact ⟨fun hne => absurd rfl hne, fun hl => absurd hl.1 hline.mode_ne_launch⟩
  | @launched s rest e hm he hs =>
      rw [attempts_warnings_append]
      obtain ⟨hread, -, -⟩ := Selection.read_eq_ok_iff.mp hs
      exact ⟨fun _ => ⟨hm, ⟨e, he⟩, hread⟩, fun _ => List.cons_ne_nil _ _⟩

/-- Without a launch a run succeeds exactly if its line is delivered. -/
theorem Course.result_of_not_launches (h : Course host o input r) (hl : ¬ o.Launches input) :
    (o.Delivers host input → r.result = .ok ⟨0, [], []⟩) ∧
      (¬ o.Delivers host input → ∃ e, r.result = .error e) := by
  cases h with
  | unresolved hm he =>
      refine ⟨?_, fun _ => ⟨_, rfl⟩⟩
      rintro ⟨-, hres, -⟩
      obtain ⟨e, hok⟩ := hres.resolve_left hm
      cases he.symm.trans hok
  | unreadable hres hs =>
      refine ⟨?_, fun _ => ⟨_, rfl⟩⟩
      rintro ⟨-, -, hread, -⟩
      cases (Selection.read_of_endures hread).symm.trans hs
  | cutOff hs hline hf hroom =>
      refine ⟨?_, fun _ => ⟨_, rfl⟩⟩
      rintro ⟨-, -, -, htakes⟩
      obtain ⟨-, rfl, rfl⟩ := Selection.read_eq_ok_iff.mp hs
      exact absurd (htakes _ hline _ hf) (Nat.not_le.mpr hroom)
  | @printed s rest line hs hline htakes =>
      obtain ⟨hread, rfl, rfl⟩ := Selection.read_eq_ok_iff.mp hs
      refine ⟨fun _ => rfl, fun hd => absurd ?_ hd⟩
      refine ⟨hline.mode_ne_launch, hline.resolves, hread, fun line' hline' => ?_⟩
      rwa [hline'.unique hline]
  | @launched s rest e hm he hs =>
      obtain ⟨hread, -, -⟩ := Selection.read_eq_ok_iff.mp hs
      exact absurd ⟨hm, ⟨e, he⟩, hread⟩ hl

/-- What the system starts matters only at the words that were attempted, and there only if they can
be handed to the system. -/
theorem run_congr_start {start : List Bytes → Except StartFailure Outcome}
    (h : ∀ words ∈ (o.run host input).attempts, (∀ w ∈ words, 0 ∉ w) →
      start words = host.start words) :
    o.run { host with start } input = o.run host input := by
  cases hp : o.purpose with
  | error e => rw [run_of_purpose_error hp, run_of_purpose_error hp]
  | ok p =>
      match hs : Selection.read input with
      | (.error f, rest) => rw [run_of_read_error hp hs, run_of_read_error hp hs]
      | (.ok s, rest) =>
          rw [run_of_read hp hs, run_of_read hp hs]
          cases p with
          | print | display e => rfl
          | launch e =>
              have hmem : e.argv s.path ∈ (o.run host input).attempts := by
                rw [attempts_of_launch hp hs]
                exact List.mem_singleton.mpr rfl
              simp only [Purpose.serve, Editor.launch_congr_start (h _ hmem)]

end Opening

/-! ## Runs -/

theorem mode_openingOf_eq_launch_iff (request : Request) :
    (Plan.openingOf request).mode = .launch ↔ request.print = false ∧ request.dryRun = false := by
  rcases request with ⟨editor, _ | _, _ | _, quiet, completions⟩ <;> simp [Plan.openingOf]

theorem Run.code_opening_of_ok {o : Opening} {out : Outcome}
    (h : (o.run host i.stdin).result = .ok out) :
    (Run.opening host i o).outcome.code = out.code := by
  simp only [Run.opening, Run.outcomeOf, h]

theorem Run.code_opening_of_error {o : Opening} {e : OpenError}
    (h : (o.run host i.stdin).result = .error e) : (Run.opening host i o).outcome.code = 1 := by
  simp only [Run.opening, Run.outcomeOf, h]
  rfl

/-- A run depends on what the system starts only at the words that it attempted. -/
theorem run_congr_start {start : List Bytes → Except StartFailure Outcome}
    (h : ∀ words ∈ (run host i).attempts, start words = host.start words) :
    run { host with start } i = run host i := by
  cases hparse : Request.parse i.commandLine (i.env.bytes? editorVariable) with
  | error e =>
      rw [run_of_error hparse, run_of_error hparse]
      rfl
  | ok request =>
      cases hc : request.completions with
      | some s =>
          rw [run_of_completions hparse hc, run_of_completions hparse hc]
          rfl
      | none =>
          rw [run_of_request hparse hc] at h
          rw [run_of_request hparse hc, run_of_request hparse hc]
          simp only [Run.opening, Opening.run_congr_start fun words hw _ => h words hw]

/-! ## Calls -/

/-- The run is to start an editor: the words of the command line are a request to launch, the option
or else the variable has the editor's command, which is resolved, and the input is read to its
end. -/
structure Invocation.Calls (i : Invocation) (given : Request) (command : String) (e : Editor) :
    Prop where
  parses : Request.parse i.commandLine none = .ok given
  completions : given.completions = none
  print : given.print = false
  dryRun : given.dryRun = false
  configured : Request.EditorCommand given.editor (i.env.bytes? editorVariable) command
  resolves : Editor.parse (some command) = .ok e
  endures : i.stdin.Endures

namespace Invocation

variable {given request : Request} {command : String} {e : Editor}

theorem Calls.parse_eq (h : i.Calls given command e) :
    Request.parse i.commandLine (i.env.bytes? editorVariable) =
      .ok { given with editor := some command } :=
  Request.parse_of_editorCommand h.parses h.configured

theorem exists_calls_of_request
    (hparse : Request.parse i.commandLine (i.env.bytes? editorVariable) = .ok request)
    (hc : request.completions = none) (hl : (Plan.openingOf request).Launches i.stdin) :
    ∃ given command e, i.Calls given command e := by
  obtain ⟨hmode, ⟨e, he⟩, hread⟩ := hl
  obtain ⟨hprint, hdry⟩ := (mode_openingOf_eq_launch_iff request).mp hmode
  cases hed : request.editor with
  | none =>
      rw [show (Plan.openingOf request).editor = none from hed] at he
      cases he
  | some command =>
      rw [show (Plan.openingOf request).editor = some command from hed] at he
      obtain ⟨given, hgiven, hcommand, rfl⟩ := (Request.parse_eq_ok_iff hed).mp hparse
      exact ⟨given, command, e, hgiven, hc, hprint, hdry, hcommand, he, hread⟩

theorem Calls.launches (h : i.Calls given command e) :
    (Plan.openingOf { given with editor := some command }).Launches i.stdin :=
  ⟨(mode_openingOf_eq_launch_iff _).mpr ⟨h.print, h.dryRun⟩, ⟨e, h.resolves⟩, h.endures⟩

theorem Calls.run_eq (h : i.Calls given command e) (host : Host) :
    run host i = .opening host i (Plan.openingOf { given with editor := some command }) :=
  run_of_request h.parse_eq h.completions

/-- A run attempts to start a program exactly if it is to start an editor. -/
theorem attempts_ne_nil_iff_calls :
    (run host i).attempts ≠ [] ↔ ∃ given command e, i.Calls given command e := by
  constructor
  · intro hne
    cases hparse : Request.parse i.commandLine (i.env.bytes? editorVariable) with
    | error h =>
        rw [run_of_error hparse, Run.attempts, Run.actions_answering] at hne
        exact absurd rfl hne
    | ok request =>
        cases hc : request.completions with
        | some s =>
            rw [run_of_completions hparse hc] at hne
            exact absurd rfl hne
        | none =>
            rw [run_of_request hparse hc] at hne
            have hcourse := Opening.course_run host (Plan.openingOf request) i.stdin
            exact exists_calls_of_request hparse hc (hcourse.attempts_ne_nil_iff.mp hne)
  · rintro ⟨given, command, e, h⟩
    rw [h.run_eq]
    exact (Opening.course_run host _ i.stdin).attempts_ne_nil_iff.mpr h.launches

/-- Such a run warns and then attempts the start, once, with the whole input read. -/
theorem Calls.opening_eq (h : i.Calls given command e) (host : Host) :
    ∃ (s : Selection) (ws : List Warning), Selection.read i.stdin = (.ok s, []) ∧
      (Plan.openingOf { given with editor := some command }).run host i.stdin =
        { actions := ws.map .warned ++ [.attempted (e.argv s.path)]
          result := (e.launch host s.path).mapError .launch
          unread := [] } := by
  have hs := Selection.read_of_endures h.endures
  obtain ⟨ws, hws⟩ := (Plan.openingOf { given with editor := some command }).warnings_eq
    (Selection.ofBytes i.stdin.bytes)
  refine ⟨_, ws, hs, ?_⟩
  rw [Opening.run_of_launched h.launches.1 h.resolves hs, hws]

/-- The exit code of a request that starts nothing. -/
theorem code_of_not_calls
    (hparse : Request.parse i.commandLine (i.env.bytes? editorVariable) = .ok request)
    (hc : request.completions = none) (hnot : ¬ ∃ given command e, i.Calls given command e) :
    ((Plan.openingOf request).Delivers host i.stdin → (run host i).outcome.code = 0) ∧
      (¬ (Plan.openingOf request).Delivers host i.stdin → (run host i).outcome.code = 1) := by
  have hl : ¬ (Plan.openingOf request).Launches i.stdin :=
    fun hl => hnot (exists_calls_of_request hparse hc hl)
  obtain ⟨hok, herror⟩ :=
    (Opening.course_run host (Plan.openingOf request) i.stdin).result_of_not_launches hl
  rw [run_of_request hparse hc]
  refine ⟨fun hd => Run.code_opening_of_ok (hok hd), fun hd => ?_⟩
  obtain ⟨e, he⟩ := herror hd
  exact Run.code_opening_of_error he

end Invocation

/-- **An editor is started exactly when it is called for.** Some program is attempted exactly if the
options ask for it, the editor is resolved and the input is read to its end. Then it is attempted
once, last, with the editor's arguments and the selected path, and has the exit code of the run, or
1 where it is not started. What the system starts matters at these words alone, and no input that
breaks off has led to an attempt before. Every other run has the exit code of its answer, 0 for a
completion script that standard output takes, for which neither the editor nor the input is looked
at, 0 for a line that is delivered, and 1 for an error of its own. -/
theorem editor_started_when_called (host : Host) (i : Invocation) :
    ((run host i).attempts ≠ [] ↔ ∃ given command e, i.Calls given command e) ∧
    (∀ given command e, i.Calls given command e →
      ∃ (s : Selection) (ws : List Warning), Selection.read i.stdin = (.ok s, []) ∧
        let words := encode e.program :: (e.args.map encode ++ [s.path])
        (run host i).actions = ws.map .warned ++ [.attempted words] ∧
        (run host i).unread = [] ∧
        ((∀ w ∈ words, 0 ∉ w) → ∀ out, host.start words = .ok out →
          (run host i).outcome.code = out.code) ∧
        ((∃ w ∈ words, 0 ∈ w) ∨ (∃ failure, host.start words = .error failure) →
          (run host i).outcome.code = 1)) ∧
    (∀ start, (∀ words ∈ (run host i).attempts, start words = host.start words) →
      run { host with start } i = run host i) ∧
    (∀ before f rest, f.kind ≠ .interrupted →
      (run host { i with stdin := before ++ .failure f :: rest }).attempts = []) ∧
    (∀ h, Request.parse i.commandLine (i.env.bytes? editorVariable) = .error h →
      (run host i).actions = [] ∧ (run host i).unread = i.stdin ∧
        (run host i).outcome.code = match h with | .refused _ => 2 | .help _ | .version => 0) ∧
    (∀ request s, Request.parse i.commandLine (i.env.bytes? editorVariable) = .ok request →
      request.completions = some s →
      (run host i).actions = [] ∧ (run host i).unread = i.stdin ∧
        (host.Takes (encode s.script) →
          run host i =
            { actions := [], outcome := ⟨0, encode s.script, []⟩, unread := i.stdin })) ∧
    ∀ request, Request.parse i.commandLine (i.env.bytes? editorVariable) = .ok request →
      request.completions = none → (¬ ∃ given command e, i.Calls given command e) →
      ((Plan.openingOf request).Delivers host i.stdin → (run host i).outcome.code = 0) ∧
        (¬ (Plan.openingOf request).Delivers host i.stdin → (run host i).outcome.code = 1) := by
  refine ⟨Invocation.attempts_ne_nil_iff_calls, ?_, fun start => run_congr_start, ?_, ?_, ?_,
    fun request => Invocation.code_of_not_calls⟩
  · intro given command e h
    obtain ⟨s, ws, hs, hopening⟩ := h.opening_eq host
    refine ⟨s, ws, hs, ?_⟩
    intro words
    have hresult := congrArg Record.result hopening
    rw [h.run_eq]
    refine ⟨congrArg Record.actions hopening, congrArg Record.unread hopening, ?_, ?_⟩
    · intro hnul out hout
      refine Run.code_opening_of_ok (hresult.trans ?_)
      rw [Editor.launch_of_no_nul host hnul]
      show ((host.start words).mapError _).mapError _ = _
      rw [hout]
      rfl
    · intro hfails
      obtain ⟨err, herr⟩ := Editor.exists_launch_error host e s.path hfails
      exact Run.code_opening_of_error (hresult.trans (by rw [herr]; rfl))
  · intro before f rest hf
    refine Decidable.byContradiction fun hne => ?_
    obtain ⟨_, _, _, hcalls⟩ := Invocation.attempts_ne_nil_iff_calls.mp hne
    exact hf (hcalls.endures f (by simp))
  · intro h hparse
    rw [run_of_error hparse]
    refine ⟨Run.actions_answering h, Run.unread_answering h, ?_⟩
    rw [Run.code_answering]
    cases h <;> rfl
  · intro request s hparse hc
    rw [run_of_completions hparse hc]
    exact ⟨rfl, rfl, Run.completing_of_takes⟩

/-- The option beside a variable that is no text, an input that is interrupted, and an editor that
ends with the code 3. -/
theorem editor_started_when_called_option :
    let host : Host := ⟨none, fun _ => .ok ⟨3, [], []⟩⟩
    let input : Input :=
      [.data (encode "a:"), .failure ⟨.interrupted, "again"⟩, .data (encode "1\n")]
    let i : Invocation := ⟨["grepedit", "-e", "vi -n"].map encode, [("EDITOR", [0xFF])], input⟩
    .attempted (["vi", "-n", "a"].map encode) ∈ (run host i).actions ∧
      (run host i).outcome.code = 3 := by
  intro host input i
  have hread : input.Endures := by decide
  have hcalls : i.Calls ⟨some "vi -n", false, false, false, none⟩ "vi -n"
      ⟨"vi", ["-n"], by decide⟩ :=
    ⟨rfl, rfl, rfl, rfl, .option _ _, rfl, hread⟩
  obtain ⟨_, hlaunch, _⟩ := editor_started_when_called host i
  obtain ⟨s, ws, hs, hactions, _, hcode, _⟩ := hlaunch _ _ _ hcalls
  have hpath : Selection.read i.stdin = (.ok (.matched (encode "a")), []) := rfl
  cases hs.symm.trans hpath
  refine ⟨?_, hcode (by decide) _ rfl⟩
  rw [hactions]
  exact List.mem_append_right _ (List.mem_singleton.mpr rfl)

end LastMatch
