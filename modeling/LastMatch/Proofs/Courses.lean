import LastMatch.Proofs.Openings

/-!
# The ways an opening can go

An opening is stopped before it has a path to open, it prints a line, whole or cut off, or it
launches an editor. `Course` has one case for each way that a run can go, and `course_run` says that
every run goes one of them.
-/

namespace LastMatch.Opening

variable {host : Host} {o : Opening} {input rest : Input} {s : Selection} {path line : Bytes}

/-- The editor is resolved, where the mode needs one. -/
def Resolves (o : Opening) : Prop := o.mode = .print ∨ ∃ e, Editor.parse o.editor = .ok e

/-- The line that is to be printed for a path: the path, or the editor's command line for it. -/
inductive Prints (o : Opening) (path : Bytes) : Bytes → Prop where
  | path : o.mode = .print → Prints o path path
  | command {e : Editor} : o.mode = .dryRun → Editor.parse o.editor = .ok e →
      Prints o path (e.displayCommand path)

/-- The ways that a run can go, with all that it does. -/
inductive Course (host : Host) (o : Opening) (input : Input) : Record → Prop where
  | unresolved {e : LaunchError} : o.mode ≠ .print → Editor.parse o.editor = .error e →
      Course host o input ⟨[], .error (.launch e), input⟩
  | unreadable {f : ReadFailure} {rest : Input} : o.Resolves →
      Selection.read input = (.error f, rest) →
      Course host o input ⟨[], .error (.read f), rest⟩
  | cutOff {s : Selection} {rest : Input} {line : Bytes} {f : StdoutFault} :
      Selection.read input = (.ok s, rest) → o.Prints s.path line →
      host.stdoutFault = some f → f.room < (asLine line).length →
      Course host o input
        ⟨o.warnings s ++ Action.ofTaken ((asLine line).take f.room), .error (.write f.reason), rest⟩
  | printed {s : Selection} {rest : Input} {line : Bytes} :
      Selection.read input = (.ok s, rest) → o.Prints s.path line → host.Takes (asLine line) →
      Course host o input ⟨o.warnings s ++ [.wrote (asLine line)], .ok ⟨0, [], []⟩, rest⟩
  | launched {s : Selection} {rest : Input} {e : Editor} : o.mode = .launch →
      Editor.parse o.editor = .ok e → Selection.read input = (.ok s, rest) →
      Course host o input
        ⟨o.warnings s ++ [.attempted (e.argv s.path)], (e.launch host s.path).mapError .launch, rest⟩

/-! ## Which way a run goes -/

theorem purpose_of_unresolved {e : LaunchError} (hmode : o.mode ≠ .print)
    (h : Editor.parse o.editor = .error e) : o.purpose = .error e := by
  cases hm : o.mode with
  | print => exact absurd hm hmode
  | launch | dryRun =>
      rw [purpose, hm, h]
      rfl

theorem Resolves.exists_purpose (h : o.Resolves) : ∃ p, o.purpose = .ok p := by
  cases hm : o.mode with
  | print => exact ⟨.print, by rw [purpose, hm]⟩
  | launch | dryRun =>
      obtain ⟨e, he⟩ := h.resolve_left (by simp [hm])
      rw [purpose, hm, he]
      exact ⟨_, rfl⟩

theorem run_of_unreadable {f : ReadFailure} (h : o.Resolves)
    (hs : Selection.read input = (.error f, rest)) :
    o.run host input = { actions := [], result := .error (.read f), unread := rest } := by
  obtain ⟨p, hp⟩ := h.exists_purpose
  exact run_of_read_error hp hs

theorem Resolves.exists_prints (h : o.Resolves) (hm : o.mode ≠ .launch) (path : Bytes) :
    ∃ line, o.Prints path line := by
  cases hmode : o.mode with
  | launch => exact absurd hmode hm
  | print => exact ⟨path, .path hmode⟩
  | dryRun =>
      obtain ⟨e, he⟩ := h.resolve_left (by simp [hmode])
      exact ⟨_, .command hmode he⟩

theorem Prints.resolves (h : o.Prints path line) : o.Resolves := by
  cases h with
  | path hm => exact .inl hm
  | command hm he => exact .inr ⟨_, he⟩

/-- There is only one line to print. -/
theorem Prints.unique {line' : Bytes} (h : o.Prints path line) (h' : o.Prints path line') :
    line = line' := by
  cases h with
  | path hm =>
      cases h' with
      | path => rfl
      | command hm' => cases hm.symm.trans hm'
  | command hm he =>
      cases h' with
      | path hm' => cases hm.symm.trans hm'
      | command _ he' =>
          cases he.symm.trans he'
          rfl

/-- Where a line is to be printed, the run warns and writes that line. -/
theorem run_of_prints (hline : o.Prints s.path line) (hs : Selection.read input = (.ok s, rest)) :
    o.run host input =
      { actions := o.warnings s ++ (writeLine host line).1
        result := (writeLine host line).2
        unread := rest } := by
  cases hline with
  | path hm =>
      have hp : o.purpose = .ok .print := by rw [purpose, hm]
      rw [run_of_read hp hs]
      rfl
  | @command e hm he =>
      have hp : o.purpose = .ok (.display e) := by
        rw [purpose, hm, he]
        rfl
      rw [run_of_read hp hs]
      rfl

theorem run_of_cutOff {f : StdoutFault} (hline : o.Prints s.path line)
    (hs : Selection.read input = (.ok s, rest)) (hf : host.stdoutFault = some f)
    (hroom : f.room < (asLine line).length) :
    o.run host input =
      { actions := o.warnings s ++ Action.ofTaken ((asLine line).take f.room)
        result := .error (.write f.reason)
        unread := rest } := by
  rw [run_of_prints hline hs, writeLine_of_not_takes hf hroom]

theorem run_of_printed (hline : o.Prints s.path line) (hs : Selection.read input = (.ok s, rest))
    (hout : host.Takes (asLine line)) :
    o.run host input =
      { actions := o.warnings s ++ [.wrote (asLine line)], result := .ok ⟨0, [], []⟩,
        unread := rest } := by
  rw [run_of_prints hline hs, writeLine_of_takes hout]

theorem run_of_launched {e : Editor} (hm : o.mode = .launch) (he : Editor.parse o.editor = .ok e)
    (hs : Selection.read input = (.ok s, rest)) :
    o.run host input =
      { actions := o.warnings s ++ [.attempted (e.argv s.path)]
        result := (e.launch host s.path).mapError .launch
        unread := rest } := by
  have hp : o.purpose = .ok (.launch e) := by
    rw [purpose, hm, he]
    rfl
  rw [run_of_read hp hs]
  rfl

/-- Every run goes one of these ways. -/
theorem course_run (host : Host) (o : Opening) (input : Input) :
    Course host o input (o.run host input) := by
  by_cases hres : o.Resolves
  · match hs : Selection.read input with
    | (.error f, rest) =>
        rw [run_of_unreadable hres hs]
        exact .unreadable hres hs
    | (.ok s, rest) =>
        by_cases hm : o.mode = .launch
        · obtain ⟨e, he⟩ := hres.resolve_left (by simp [hm])
          rw [run_of_launched hm he hs]
          exact .launched hm he hs
        · obtain ⟨line, hline⟩ := hres.exists_prints hm s.path
          rcases host.takes_or_fails (asLine line) with htakes | ⟨f, hf, hroom⟩
          · rw [run_of_printed hline hs htakes]
            exact .printed hs hline htakes
          · rw [run_of_cutOff hline hs hf hroom]
            exact .cutOff hs hline hf hroom
  · obtain ⟨hm, hparse⟩ := not_or.mp hres
    cases he : Editor.parse o.editor with
    | ok e => exact absurd ⟨e, he⟩ hparse
    | error e =>
        rw [run_of_purpose_error (purpose_of_unresolved hm he)]
        exact .unresolved hm he

/-- There is at most one warning, and none in a quiet run. -/
theorem exists_warnings (o : Opening) (s : Selection) :
    ∃ ws : List Warning, o.warnings s = ws.map .warned ∧ ws.length ≤ 1 ∧
      (o.quiet = true → ws = []) := by
  unfold warnings
  split
  · exact ⟨[], rfl, Nat.zero_le 1, fun _ => rfl⟩
  · rename_i hquiet
    refine ⟨_, rfl, ?_, fun hq => absurd hq hquiet⟩
    cases Warning.of o.mode s <;> simp

end LastMatch.Opening
