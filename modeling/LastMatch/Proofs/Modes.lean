import LastMatch.Proofs.Openings
import LastMatch.Proofs.ReadingBack

/-!
# The three modes agree

Printing the path, showing the command line and launching the editor denote the same words. What is
shown splits into the editor's words and the path that is printed, and these are the words that a
launch hands to the system; if one of them has a NUL, the system is handed none.
-/

namespace LastMatch.Opening

open Utf8

variable {host : Host} {command : Option String} {input : Input}

/-- **The three modes agree.** For every command, every input that is read to its end and either
setting of `quiet`: with the path `p` that is printed, a wrong command is the same error in the
other two modes, and a right one gives words that the shown line splits into and that a launch hands
to the system, whatever the system then makes of them. With a NUL in a word the launch is attempted
with the same words, but fails in the same way whatever the system would make of any words, so
nothing is started. -/
theorem modes_agree (host : Host) (command : Option String) (quiet : Bool) (input : Input)
    (hout : host.stdoutFault = none) (hread : input.Endures) :
    ∃ p : Bytes,
      (run host ⟨command, .print, quiet⟩ input).written = asLine p ∧
      (∀ e, Editor.parse command = .error e →
        (run host ⟨command, .dryRun, quiet⟩ input).result = .error (.launch e) ∧
        (run host ⟨command, .launch, quiet⟩ input).result = .error (.launch e)) ∧
      ∀ editor, Editor.parse command = .ok editor →
        let words := encode editor.program :: editor.args.map encode ++ [p]
        ∃ line,
          (run host ⟨command, .dryRun, quiet⟩ input).written = asLine line ∧
          ((∀ w ∈ words, 0 ∉ w) →
            Words.split line = some words ∧
            (run host ⟨command, .launch, quiet⟩ input).attempts = [words] ∧
            ∀ start, (run { host with start } ⟨command, .launch, quiet⟩ input).result =
              (start words).mapError (.launch ∘ LaunchError.ofStart editor.program)) ∧
          ((∃ w ∈ words, 0 ∈ w) →
            (run host ⟨command, .launch, quiet⟩ input).attempts = [words] ∧
            ∀ start, (run { host with start } ⟨command, .launch, quiet⟩ input).result =
              .error (.launch (.notStarted editor.program Editor.nulReason))) := by
  have hs := Selection.read_of_endures hread
  refine ⟨(Selection.ofBytes input.bytes).path, written_of_writeLine hout rfl hs rfl, ?_, ?_⟩
  · intro e he
    obtain ⟨hdry, hlaunch⟩ := purpose_of_parse_error quiet he
    rw [run_of_purpose_error hdry, run_of_purpose_error hlaunch]
    exact ⟨rfl, rfl⟩
  intro editor heditor words
  obtain ⟨hdry, hlaunch⟩ := purpose_of_parse_ok quiet heditor
  have hargv : editor.argv (Selection.ofBytes input.bytes).path = words := rfl
  refine ⟨Words.commandLine words, written_of_writeLine hout hdry hs rfl, ?_, ?_⟩
  · intro hnul
    refine ⟨Words.split_commandLine hnul, attempts_of_launch hlaunch hs, ?_⟩
    intro start
    rw [result_of_launch hlaunch hs, Editor.launch_of_no_nul _ (hargv ▸ hnul), hargv]
    show ((start words).mapError _).mapError _ = _
    cases start words <;> rfl
  · intro hnul
    refine ⟨attempts_of_launch hlaunch hs, ?_⟩
    intro start
    rw [result_of_launch hlaunch hs, Editor.launch_of_nul _ (hargv ▸ hnul)]
    rfl

/-- A path with a quotation mark, cut in the middle and with an interruption, an editor with an
empty argument. -/
theorem modes_agree_interrupted :
    let host : Host := ⟨none, fun _ => .error .noSuchFile⟩
    let input : Input :=
      [.data (encode "it'"), .failure ⟨.interrupted, "again"⟩, .data (encode "s^x:1\n")]
    host.stdoutFault = none ∧ input.Endures ∧
      ∃ line,
        (run host ⟨some "vi -c ''", .dryRun, false⟩ input).written = asLine line ∧
        Words.split line = some (["vi", "-c", "", "it's^x"].map encode) := by
  intro host input
  have hread : input.Endures := by
    intro f hf
    simp only [input, List.mem_cons, List.not_mem_nil, or_false, reduceCtorEq, false_or,
      ReadEvent.failure.injEq] at hf
    rw [hf]
  obtain ⟨p, hp, _, hok⟩ := modes_agree host (some "vi -c ''") false input rfl hread
  obtain ⟨line, hline, hwords, _⟩ := hok ⟨"vi", ["-c", ""], by decide⟩ rfl
  have hpath : p = encode "it's^x" := by
    have hq : (run host ⟨some "vi -c ''", .print, false⟩ input).written
        = asLine (encode "it's^x") := rfl
    exact List.append_cancel_right (hp.symm.trans hq)
  subst hpath
  exact ⟨rfl, hread, line, hline, (hwords (by decide)).1⟩

end LastMatch.Opening
