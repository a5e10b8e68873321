import LastMatch.Proofs.Requests
import LastMatch.Proofs.Runs

/-!
# The variable that stands in for the editor

The variable is looked at once, when all words have been read and the last option is closed: the
reading up to there (`Reading.ofWords`) knows nothing of it, and what follows (`Reading.conclude`)
meets it only as an editor that was given last.

* `Request.parse_eq` cuts the reading of a command line at that point.
* `Request.parse_eq_ok_iff` says what the variable adds to the request of a command line, where
  `Request.EditorCommand` is the command of the option, or else of the variable.
* `variable_only_stands_in` compares the two runs, for every command line and every value.
-/

namespace LastMatch

open Utf8

namespace Reading

variable {r : Reading} {request : Request} {h : Halt} {v : Bytes}

/-! ## Up to the variable, and from there -/

/-- The reading of some words, with the option that they leave open closed. -/
def ofWords (words : List Bytes) : Except Halt Reading :=
  words.foldlM step start >>= fun r => accept r.close

/-- What a reading asks for, unless two of its options exclude each other. -/
def conclude (r : Reading) : Except Halt Request :=
  match r.conflict? with
  | some (a, b) => .error (.refused (.conflict a b (r.given.filter (· ≠ b))))
  | none =>
    .ok {
      editor := r.editor
      print := .print ∈ r.given
      dryRun := .dryRun ∈ r.given
      quiet := .quiet ∈ r.given
      completions := r.completions }

theorem editor_eq_of_conclude (hr : r.conclude = .ok request) : request.editor = r.editor := by
  rw [conclude] at hr
  split at hr
  · cases hr
  · cases hr
    rfl

/-- All that can still be wrong with a reading is that two options exclude each other. -/
theorem conflict_of_conclude (hr : r.conclude = .error h) :
    ∃ a b usage, h = .refused (.conflict a b usage) := by
  rw [conclude] at hr
  split at hr
  · cases hr
    exact ⟨_, _, _, rfl⟩
  · cases hr

/-! ## The variable in place of the option -/

/-- Beside the option the variable is not even looked at. -/
theorem fallBack_of_mem (hr : .editor ∈ r.given) (v : Bytes) : r.fallBack (some v) = .ok r := by
  rw [fallBack, if_pos hr]

/-- The reading with an editor given last. -/
def withEditor (r : Reading) (command : String) : Reading :=
  { r with given := r.given ++ [.editor], editor := some command }

theorem fallBack_text (hr : .editor ∉ r.given) (command : String) :
    r.fallBack (some (encode command)) = .ok (r.withEditor command) := by
  rw [fallBack, if_neg hr, assign_of_not_mem hr, store_editor]
  rfl

theorem fallBack_not_text (hr : .editor ∉ r.given) (hv : decode? v = none) :
    r.fallBack (some v) = .error (.refused .notText) := by
  rw [fallBack, if_neg hr, assign_of_not_mem hr]
  simp only [store, hv]
  rfl

/-- An editor excludes no option, and none excludes it. -/
theorem conflict?_withEditor (r : Reading) (command : String) :
    (r.withEditor command).conflict? = r.conflict? := by
  have hlast : ∀ a : Opt,
      (a.excludes? = some .editor || Opt.editor.excludes? = some a) = false := by
    intro a
    cases a <;> decide
  have hfirst : (r.given.find? fun b =>
      (Opt.editor.excludes? = some b || b.excludes? = some .editor)) = none := by
    rw [List.find?_eq_none]
    intro b _
    cases b <;> decide
  simp only [conflict?, withEditor, List.findSome?_append, List.find?_append, List.findSome?_cons,
    List.findSome?_nil, List.find?_cons, List.find?_nil, hlast, hfirst, Option.or_none,
    Option.map_none]

theorem ne_editor_of_conflict? {a b : Opt} (hc : r.conflict? = some (a, b)) : b ≠ .editor := by
  obtain ⟨a', _, hpair⟩ := List.exists_of_findSome?_eq_some hc
  obtain ⟨b', hfind, hb⟩ := Option.map_eq_some_iff.mp hpair
  cases hb
  have hclash := List.find?_some hfind
  rintro rfl
  cases a <;> cases hclash

/-- A request is the same with an editor given last, but for the editor. -/
theorem conclude_withEditor (hr : r.conclude = .ok request) (command : String) :
    (r.withEditor command).conclude = .ok { request with editor := some command } := by
  rw [conclude] at hr ⊢
  rw [conflict?_withEditor]
  split at hr
  · cases hr
  · cases hr
    simp [withEditor]

/-- Options that exclude each other still do. The usage line lists the editor as well. -/
theorem conclude_withEditor_of_conflict {a b : Opt} {usage : List Opt}
    (hr : r.conclude = .error (.refused (.conflict a b usage))) (command : String) :
    (r.withEditor command).conclude = .error (.refused (.conflict a b (usage ++ [.editor]))) := by
  rw [conclude] at hr ⊢
  rw [conflict?_withEditor]
  split at hr
  · rename_i hc
    cases hr
    simp [withEditor, (ne_editor_of_conflict? hc).symm]
  · cases hr

/-! ## What the words say of the editor -/

theorem accept_close_ended {r₀ : Reading} (hclose : accept r.close = .ok r₀) :
    accept { r with ended := true }.close = .ok { r₀ with ended := true } := by
  rw [close_ended]
  rcases hr : r.close with ⟨r', _ | refusal⟩
  · rw [hr] at hclose
    cases hclose
    rfl
  · rw [hr] at hclose
    cases hclose

theorem editor_mem_map_opt_iff {ss : List Setting} :
    .editor ∈ ss.map Setting.opt ↔ ∃ command, .editor command ∈ ss := by
  rw [List.mem_map]
  constructor
  · rintro ⟨setting, hmem, heq⟩
    cases setting with
    | editor command => exact ⟨command, hmem⟩
    | switch s => cases s <;> cases heq
    | completions => cases heq
  · rintro ⟨command, hmem⟩
    exact ⟨_, hmem, rfl⟩

theorem Holds.editor_mem_given_iff {ss : List Setting} (hr : Holds r ss) :
    .editor ∈ r.given ↔ r.editor ≠ none := by
  rw [hr.given, editor_mem_map_opt_iff, Option.ne_none_iff_exists']
  exact exists_congr fun command => (hr.editor command).symm

/-- The words of a request lead to a reading that has an editor exactly if one is given. -/
theorem Completes.exists_ofWords {words : List Bytes} (hc : Completes start words request) :
    ∃ r, ofWords words = .ok r ∧ (.editor ∈ r.given ↔ r.editor ≠ none) := by
  obtain ⟨phrases, ss, hwords, hphrases, hamounts⟩ := Holds.start.stands.continues hc
  obtain ⟨r, hrun, hr⟩ := run_phrases hphrases Holds.start.stands hamounts.once
  obtain ⟨r₀, hclose, hr₀⟩ := hr.closes
  rcases hwords with rfl | rfl
  · refine ⟨r₀, ?_, hr₀.editor_mem_given_iff⟩
    rw [ofWords, hrun]
    exact hclose
  · -- two hyphens at the end leave a mark in the reading, and nothing else
    refine ⟨{ r₀ with ended := true }, ?_, hr₀.editor_mem_given_iff⟩
    have hstep : r.step (encode "--") = .ok { r with ended := true } := by
      rw [step_eq hr.ended]
      rfl
    have hlast : [encode "--"].foldlM step r = .ok { r with ended := true } :=
      foldlM_step_cons.mpr ⟨_, hstep, rfl⟩
    rw [ofWords, List.foldlM_append, hrun]
    show ([encode "--"].foldlM step r >>= fun r => accept r.close) = _
    rw [hlast]
    exact accept_close_ended hclose

end Reading

/-! ## The two runs -/

namespace Request

variable {commandLine : List Bytes} {request : Request} {v : Bytes}

/-- The words are read, then the variable is looked at, then the request is made. -/
theorem parse_eq (commandLine : List Bytes) (inherited : Option Bytes) :
    parse commandLine inherited =
      Reading.ofWords (commandLine.drop 1) >>= fun r =>
        r.fallBack inherited >>= Reading.conclude := by
  rw [parse, Reading.ofWords, bind_assoc]
  rfl

theorem parse_of_ofWords {r : Reading} (hr : Reading.ofWords (commandLine.drop 1) = .ok r)
    (inherited : Option Bytes) :
    parse commandLine inherited = r.fallBack inherited >>= Reading.conclude := by
  rw [parse_eq, hr]
  rfl

/-- A request without the variable, and the reading that it is made from. -/
theorem exists_of_parse (h : parse commandLine none = .ok request) :
    ∃ r, Reading.ofWords (commandLine.drop 1) = .ok r ∧ r.conclude = .ok request ∧
      (.editor ∈ r.given ↔ request.editor ≠ none) := by
  have hc : Reading.Completes .start (commandLine.drop 1) request := exists_of_bind_eq_ok h
  obtain ⟨r, hr, hgiven⟩ := hc.exists_ofWords
  have hrequest : r.conclude = .ok request := (parse_of_ofWords hr none).symm.trans h
  exact ⟨r, hr, hrequest, by rw [hgiven, Reading.editor_eq_of_conclude hrequest]⟩

theorem parse_of_editor (h : parse commandLine none = .ok request) (he : request.editor ≠ none)
    (v : Bytes) : parse commandLine (some v) = .ok request := by
  obtain ⟨r, hr, hrequest, hgiven⟩ := exists_of_parse h
  rw [parse_of_ofWords hr, Reading.fallBack_of_mem (hgiven.mpr he)]
  exact hrequest

theorem parse_of_text (h : parse commandLine none = .ok request) (he : request.editor = none)
    (command : String) :
    parse commandLine (some (encode command)) = .ok { request with editor := some command } := by
  obtain ⟨r, hr, hrequest, hgiven⟩ := exists_of_parse h
  rw [parse_of_ofWords hr, Reading.fallBack_text fun hmem => hgiven.mp hmem he]
  exact Reading.conclude_withEditor hrequest command

theorem parse_of_not_text (h : parse commandLine none = .ok request) (he : request.editor = none)
    (hv : decode? v = none) : parse commandLine (some v) = .error (.refused .notText) := by
  obtain ⟨r, hr, _, hgiven⟩ := exists_of_parse h
  rw [parse_of_ofWords hr, Reading.fallBack_not_text (fun hmem => hgiven.mp hmem he) hv]
  rfl

/-- A command line that is answered without the variable is answered with it. Only where two options
exclude each other can the answer be another one: that is seen after the variable. -/
theorem parse_of_error {h : Halt} (hparse : parse commandLine none = .error h) (v : Bytes) :
    parse commandLine (some v) = .error h ∨
      ∃ a b usage, h = .refused (.conflict a b usage) ∧
        (parse commandLine (some v) = .error (.refused .notText) ∨
          parse commandLine (some v) = .error (.refused (.conflict a b (usage ++ [.editor])))) := by
  cases hr : Reading.ofWords (commandLine.drop 1) with
  | error h' =>
      rw [parse_eq, hr] at hparse
      cases hparse
      rw [parse_eq, hr]
      exact .inl rfl
  | ok r =>
      have hconclude : r.conclude = .error h := (parse_of_ofWords hr none).symm.trans hparse
      rw [parse_of_ofWords hr]
      by_cases hmem : .editor ∈ r.given
      · rw [Reading.fallBack_of_mem hmem]
        exact .inl hconclude
      · obtain ⟨a, b, usage, rfl⟩ := Reading.conflict_of_conclude hconclude
        refine .inr ⟨a, b, usage, rfl, ?_⟩
        cases hv : decode? v with
        | none =>
            rw [Reading.fallBack_not_text hmem hv]
            exact .inl rfl
        | some command =>
            rw [decode?_eq_some_iff.mp hv, Reading.fallBack_text hmem]
            exact .inr (Reading.conclude_withEditor_of_conflict hconclude command)

/-! ## The editor of a request -/

/-- The command that is to be the editor: what the option says, or else what the variable holds. -/
inductive EditorCommand : Option String → Option Bytes → String → Prop where
  | option (command : String) (inherited : Option Bytes) :
      EditorCommand (some command) inherited command
  | inherited (command : String) : EditorCommand none (some (encode command)) command

theorem eq_of_editor {command : String} (he : request.editor = some command) :
    request = { request with editor := some command } := by
  rw [← he]

/-- The request of the words alone, with the command that is to be its editor. -/
theorem parse_of_editorCommand {given : Request} {inherited : Option Bytes} {command : String}
    (hgiven : parse commandLine none = .ok given)
    (hcommand : EditorCommand given.editor inherited command) :
    parse commandLine inherited = .ok { given with editor := some command } := by
  generalize hed : given.editor = option at hcommand
  cases hcommand with
  | option =>
      rw [← eq_of_editor hed]
      cases inherited with
      | none => exact hgiven
      | some v => exact parse_of_editor hgiven (by simp [hed]) v
  | inherited => exact parse_of_text hgiven hed command

/-- No variable makes a request of words that are none. -/
theorem exists_given {inherited : Option Bytes} (h : parse commandLine inherited = .ok request) :
    ∃ given, parse commandLine none = .ok given := by
  cases hgiven : parse commandLine none with
  | ok given => exact ⟨given, rfl⟩
  | error e =>
      cases inherited with
      | none => cases hgiven.symm.trans h
      | some v =>
          rcases parse_of_error hgiven v with herror | ⟨_, _, _, _, herror | herror⟩ <;>
            cases herror.symm.trans h

/-- A request with an editor is the request of the words alone, with its own editor or else the
inherited one. -/
theorem parse_eq_ok_iff {inherited : Option Bytes} {command : String}
    (he : request.editor = some command) :
    parse commandLine inherited = .ok request ↔
      ∃ given, parse commandLine none = .ok given ∧
        EditorCommand given.editor inherited command ∧
        request = { given with editor := some command } := by
  constructor
  · intro h
    obtain ⟨given, hgiven⟩ := exists_given h
    -- any command that is to be the editor is the editor of this request
    have hfound : ∀ c, EditorCommand given.editor inherited c →
        EditorCommand given.editor inherited command ∧
          request = { given with editor := some command } := by
      intro c hc
      cases (parse_of_editorCommand hgiven hc).symm.trans h
      cases he
      exact ⟨hc, rfl⟩
    refine ⟨given, hgiven, ?_⟩
    cases hed : given.editor with
    | some c => exact hed ▸ hfound c (hed ▸ .option c inherited)
    | none =>
        cases inherited with
        | none =>
            cases hgiven.symm.trans h
            cases hed.symm.trans he
        | some v =>
            cases hv : decode? v with
            | none => cases (parse_of_not_text hgiven hed hv).symm.trans h
            | some c =>
                obtain rfl := decode?_eq_some_iff.mp hv
                exact hed ▸ hfound c (hed ▸ .inherited c)
  · rintro ⟨given, hgiven, hcommand, rfl⟩
    exact parse_of_editorCommand hgiven hcommand

end Request

/-- **The variable is only a fallback, and leaks nowhere else.** Compared with the run without it,
for every value: a request that has an editor stays as it is; one without gets the value as its
editor, if the value is a text, and is refused otherwise; and an answer stays as it is, to the last
byte of what the whole program does, unless it is that two options exclude each other. Then there is
an answer too, one of three in which nothing of the value is shown. -/
theorem variable_only_stands_in (commandLine : List Bytes) :
    (∀ request command, Request.parse commandLine none = .ok request →
      request.editor = some command →
      ∀ v, Request.parse commandLine (some v) = .ok request) ∧
    (∀ request, Request.parse commandLine none = .ok request → request.editor = none → ∀ v,
      (∀ command, v = encode command →
        Request.parse commandLine (some v) = .ok { request with editor := some command }) ∧
      (decode? v = none → Request.parse commandLine (some v) = .error (.refused .notText))) ∧
    (∀ h, Request.parse commandLine none = .error h →
      (∀ a b usage, h ≠ .refused (.conflict a b usage)) →
      (∀ v, Request.parse commandLine (some v) = .error h) ∧
      ∀ (host : Host) (env env' : Environment) (stdin : Input),
        (∀ name ≠ editorVariable, env.bytes? name = env'.bytes? name) →
        run host ⟨commandLine, env, stdin⟩ = run host ⟨commandLine, env', stdin⟩) ∧
    (∀ a b usage, Request.parse commandLine none = .error (.refused (.conflict a b usage)) →
      ∀ v, ∃ r ∈ [.conflict a b usage, .conflict a b (usage ++ [.editor]), .notText],
        Request.parse commandLine (some v) = .error (.refused r)) := by
  refine ⟨?_, ?_, ?_, ?_⟩
  · intro request command h he v
    exact Request.parse_of_editor h (by simp [he]) v
  · intro request h he v
    refine ⟨?_, Request.parse_of_not_text h he⟩
    rintro command rfl
    exact Request.parse_of_text h he command
  · intro h hparse hother
    have hsame : ∀ inherited, Request.parse commandLine inherited = .error h := by
      intro inherited
      cases inherited with
      | none => exact hparse
      | some v =>
          refine (Request.parse_of_error hparse v).resolve_right ?_
          rintro ⟨a, b, usage, heq, _⟩
          exact hother a b usage heq
    refine ⟨fun v => hsame (some v), ?_⟩
    intro host env env' stdin henv
    rw [run_of_error (hsame _), run_of_error (hsame _)]
    exact Run.answering_congr henv stdin h
  · intro a b usage hparse v
    rcases Request.parse_of_error hparse v with hsame | ⟨a', b', usage', heq, htext | husage⟩
    · exact ⟨_, by simp, hsame⟩
    · exact ⟨_, by simp, htext⟩
    · cases heq
      exact ⟨_, by simp, husage⟩

end LastMatch
