import LastMatch.Program

/-!
# Runs by their plans

What a whole run does, one lemma for each kind of plan, and what of the environment it depends on.
The editor variable takes part in a run only while the options are read: beside that, a run looks at
other variables alone (`Run.answering_congr`).
-/

namespace LastMatch

variable {host : Host} {i : Invocation}

/-- The words that a run attempted to start as programs, in order. -/
def Run.attempts (r : Run) : List (List Bytes) := Action.attempts r.actions

/-! ## Plans -/

theorem run_of_error {h : Halt}
    (hparse : Request.parse i.commandLine (i.env.bytes? editorVariable) = .error h) :
    run host i = .answering host i h := by
  rw [run, Plan.make, hparse]

theorem run_of_completions {request : Request} {s : Shell}
    (hparse : Request.parse i.commandLine (i.env.bytes? editorVariable) = .ok request)
    (hs : request.completions = some s) : run host i = .completing host i.stdin s := by
  simp only [run, Plan.make, hparse, hs]

theorem Host.cut_of_takes {bytes : Bytes} (h : host.Takes bytes) : host.cut bytes = bytes := by
  unfold Host.cut
  split
  · rfl
  · rename_i f hf
    exact List.take_of_length_le (h f hf)

/-- A script that standard output takes is printed whole. -/
theorem Run.completing_of_takes {input : Input} {s : Shell}
    (h : host.Takes (Utf8.encode s.script)) :
    Run.completing host input s =
      { actions := [], outcome := ⟨0, Utf8.encode s.script, []⟩, unread := input } := by
  rw [completing, if_pos h, Host.cut_of_takes h]

theorem run_of_request {request : Request}
    (hparse : Request.parse i.commandLine (i.env.bytes? editorVariable) = .ok request)
    (hs : request.completions = none) :
    run host i = .opening host i (Plan.openingOf request) := by
  simp only [run, Plan.make, hparse, hs]

/-- Of the command line, a run depends on what the words ask for and on the name of the program. -/
theorem run_congr_commandLine {commandLine commandLine' : List Bytes} {env : Environment}
    {stdin : Input}
    (hparse : Request.parse commandLine (env.bytes? editorVariable) =
      Request.parse commandLine' (env.bytes? editorVariable))
    (hname : calledName commandLine = calledName commandLine') :
    run host ⟨commandLine, env, stdin⟩ = run host ⟨commandLine', env, stdin⟩ := by
  have hplan : Plan.make commandLine env = Plan.make commandLine' env := by
    rw [Plan.make, hparse]
    rfl
  unfold run
  rw [hplan]
  cases Plan.make commandLine' env with
  | answer h => simp only [Run.answering, hname]
  | complete s => rfl
  | opening o => rfl

/-! ## Answers -/

/-- Where two environments agree on all variables but the editor's, an answer is the same. -/
theorem Run.answering_congr {commandLine : List Bytes} {env env' : Environment}
    (henv : ∀ name ≠ editorVariable, env.bytes? name = env'.bytes? name) (stdin : Input)
    (h : Halt) :
    Run.answering host ⟨commandLine, env, stdin⟩ h =
      Run.answering host ⟨commandLine, env', stdin⟩ h := by
  have hcolour : Colour.forOptions env = Colour.forOptions env' := by
    rw [Colour.forOptions, henv "NO_COLOR" (by decide), henv "CLICOLOR_FORCE" (by decide)]
    rfl
  simp only [Run.answering, hcolour]

theorem Run.actions_answering (h : Halt) : (Run.answering host i h).actions = [] := by
  rw [Run.answering]
  split <;> rfl

theorem Run.unread_answering (h : Halt) : (Run.answering host i h).unread = i.stdin := by
  rw [Run.answering]
  split <;> rfl

/-- A refusal has the exit code 2, and an answer that was asked for the code 0. -/
theorem Run.code_answering (h : Halt) : (Run.answering host i h).outcome.code = h.code := by
  rw [Run.answering]
  split
  · rfl
  · rename_i herror
    rw [Halt.code, if_neg herror]
    rfl

end LastMatch
