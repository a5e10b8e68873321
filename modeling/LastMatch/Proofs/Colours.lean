import LastMatch.Proofs.Launches
import LastMatch.Proofs.Marks

/-!
# Colour in the output of a run

Whether a run uses colour shows in the labels of its diagnostics and nowhere else.

* `Diagnostic.uncoloured` takes the escape sequences around labels out of some output, and
  `Diagnostic.uncoloured_lines` says that the same diagnostics with and without colour then agree.
* `Opening.Shows` says which words standard output shows. A part of it that has none of the bytes that
  quoting adds comes from one of them; `control_sequence_from_quoting` is why this is not so for all
  parts.
* `colour_only_in_labels` compares two runs under different settings of colour.
-/

namespace LastMatch

open Utf8

/-! ## Diagnostics -/

namespace Diagnostic

/-- Diagnostics as they stand on standard error, each a label and a message. -/
def lines (colour : Bool) (ds : List (Label × String)) : Bytes :=
  ds.flatMap fun d => encode (line colour d.1 d.2)

/-- A line without the escape sequences directly around its label, if it starts with a label in
colour. -/
def uncolouredLine (l : Bytes) : Bytes :=
  match [Label.warning, .error].find? fun label => (encode (label.render true)).isPrefixOf l with
  | some label => encode label.text ++ l.drop (encode (label.render true)).length
  | none => l

/-- Some output with all its lines uncoloured. -/
def uncoloured (output : Bytes) : Bytes :=
  [newline].intercalate ((output.splitOn newline).map uncolouredLine)

variable {bs : Bytes}

theorem newline_not_mem_render (colour : Bool) (label : Label) :
    newline ∉ encode (label.render colour) := by
  cases colour <;> cases label <;> decide

theorem uncolouredLine_render (colour : Bool) (label : Label) (rest : Bytes) :
    uncolouredLine (encode (label.render colour) ++ rest) = encode label.text ++ rest := by
  cases colour <;> cases label <;> rfl

theorem intercalate_append {ls ms : List Bytes} (sep : Bytes) (hls : ls ≠ []) (hms : ms ≠ []) :
    sep.intercalate (ls ++ ms) = sep.intercalate ls ++ (sep ++ sep.intercalate ms) := by
  induction ls with
  | nil => exact absurd rfl hls
  | cons l ls ih =>
      cases ls with
      | nil =>
          rw [List.singleton_append, List.intercalate_cons_of_ne_nil hms, List.intercalate_singleton,
            List.append_assoc]
      | cons l' ls =>
          have hne : l' :: ls ≠ [] := List.cons_ne_nil l' ls
          have hmore : l' :: ls ++ ms ≠ [] := List.append_ne_nil_of_left_ne_nil hne ms
          rw [List.cons_append, List.intercalate_cons_of_ne_nil hmore, ih hne,
            List.intercalate_cons_of_ne_nil hne]
          simp only [List.append_assoc]

/-- Lines are uncoloured one by one. -/
theorem uncoloured_append_newline (bs rest : Bytes) :
    uncoloured (bs ++ newline :: rest) = uncoloured bs ++ newline :: uncoloured rest := by
  have hbs : (bs.splitOn newline).map uncolouredLine ≠ [] :=
    fun hnil => List.splitOn_ne_nil newline bs (List.map_eq_nil_iff.mp hnil)
  have hrest : (rest.splitOn newline).map uncolouredLine ≠ [] :=
    fun hnil => List.splitOn_ne_nil newline rest (List.map_eq_nil_iff.mp hnil)
  rw [uncoloured, List.splitOn_append_cons_self, List.map_append,
    intercalate_append [newline] hbs hrest]
  rfl

theorem uncoloured_of_not_mem (h : newline ∉ bs) : uncoloured bs = uncolouredLine bs := by
  rw [uncoloured, List.splitOn_eq_singleton h, List.map_singleton, List.intercalate_singleton]

/-- With or without colour, a label at the start of some output is uncoloured to the same. -/
theorem uncoloured_render (colour colour' : Bool) (label : Label) (rest : Bytes) :
    uncoloured (encode (label.render colour) ++ rest) =
      uncoloured (encode (label.render colour') ++ rest) := by
  have hline : ∀ (c : Bool) {line : Bytes}, newline ∉ line →
      uncoloured (encode (label.render c) ++ line) = encode label.text ++ line := by
    intro c line hmem
    have hnot : newline ∉ encode (label.render c) ++ line := by
      simp [newline_not_mem_render c label, hmem]
    rw [uncoloured_of_not_mem hnot, uncolouredLine_render]
  by_cases hrest : newline ∈ rest
  · obtain ⟨line, later, rfl, hmem⟩ := List.eq_append_cons_of_mem hrest
    rw [← List.append_assoc, ← List.append_assoc, uncoloured_append_newline,
      uncoloured_append_newline, hline colour hmem, hline colour' hmem]
  · rw [hline colour hrest, hline colour' hrest]

theorem lines_cons (colour : Bool) (d : Label × String) (ds : List (Label × String)) :
    lines colour (d :: ds) =
      (encode (d.1.render colour) ++ encode (" " ++ d.2)) ++ newline :: lines colour ds := by
  rw [lines, List.flatMap_cons, line]
  simp only [encode_append, List.append_assoc]
  rfl

/-- The same diagnostics with and without colour are uncoloured to the same. -/
theorem uncoloured_lines (colour colour' : Bool) (ds : List (Label × String)) :
    uncoloured (lines colour ds) = uncoloured (lines colour' ds) := by
  induction ds with
  | nil => rfl
  | cons d ds ih =>
      rw [lines_cons, lines_cons, uncoloured_append_newline, uncoloured_append_newline, ih,
        uncoloured_render colour colour']

end Diagnostic

/-! ## Records -/

namespace Record

/-- What a run has to say on standard error: its warnings, and the error that it ends with. -/
def diagnostics (r : Record) : List (Diagnostic.Label × String) :=
  (r.warnings.map fun w => (.warning, w.message)) ++
    match r.result with
    | .ok _ => []
    | .error e => [(.error, ": ".intercalate e.messages)]

/-- No program was started that could have left anything behind. -/
def StartsNothing (r : Record) : Prop := ∀ out, r.result = .ok out → out = ⟨0, [], []⟩

variable {r : Record}

theorem code_outcomeOf (colour colour' : Bool) (r : Record) :
    (Run.outcomeOf colour r).code = (Run.outcomeOf colour' r).code := by
  unfold Run.outcomeOf
  cases r.result <;> rfl

theorem warningLines_eq (colour : Bool) (r : Record) :
    Run.warningLines colour r =
      Diagnostic.lines colour (r.warnings.map fun w => (.warning, w.message)) := by
  rw [Run.warningLines, Diagnostic.lines, List.flatMap_map]
  rfl

theorem StartsNothing.stdout_outcomeOf (h : r.StartsNothing) (colour : Bool) :
    (Run.outcomeOf colour r).stdout = r.written := by
  unfold Run.outcomeOf
  cases hresult : r.result with
  | ok out =>
      rw [h out hresult]
      exact List.append_nil _
  | error e => rfl

theorem StartsNothing.stderr_outcomeOf (h : r.StartsNothing) (colour : Bool) :
    (Run.outcomeOf colour r).stderr = Diagnostic.lines colour r.diagnostics := by
  unfold Run.outcomeOf diagnostics
  rw [Diagnostic.lines, List.flatMap_append]
  cases hresult : r.result with
  | ok out =>
      rw [h out hresult, warningLines_eq]
      rfl
  | error e =>
      rw [warningLines_eq]
      simp only [List.flatMap_singleton]
      rfl

end Record

/-! ## Openings -/

namespace Opening

variable {host : Host} {o : Opening} {input : Input} {r : Record}

/-- If no attempt to start a program succeeds, none is started. -/
theorem Course.startsNothing (h : Course host o input r)
    (hstart : ∀ words ∈ r.attempts, (∀ w ∈ words, 0 ∉ w) →
      ∃ failure, host.start words = .error failure) : r.StartsNothing := by
  intro out hout
  cases h with
  | unresolved | unreadable | cutOff => cases hout
  | printed =>
      cases hout
      rfl
  | @launched s rest e hm he hs =>
      have hfails : (∃ w ∈ e.argv s.path, 0 ∈ w) ∨
          ∃ failure, host.start (e.argv s.path) = .error failure := by
        by_cases hnul : ∃ w ∈ e.argv s.path, 0 ∈ w
        · exact .inl hnul
        · refine .inr (hstart _ ?_ fun w hw hmem => hnul ⟨w, hw, hmem⟩)
          rw [attempts_warnings_append]
          exact List.mem_singleton.mpr rfl
      obtain ⟨err, herr⟩ := Editor.exists_launch_error host e s.path hfails
      rw [herr] at hout
      cases hout

/-- What is to be written to standard output, and the words that it shows: nothing, or the path as it
is, or the words of the editor and the path as a command line. -/
inductive Shows (o : Opening) (input : Input) : List Bytes → Bytes → Prop where
  | nothing : Shows o input [] []
  | path {s : Selection} {rest : Input} : o.mode = .print →
      Selection.read input = (.ok s, rest) → Shows o input [s.path] (asLine s.path)
  | command {e : Editor} {s : Selection} {rest : Input} : o.mode = .dryRun →
      Editor.parse o.editor = .ok e → Selection.read input = (.ok s, rest) →
      Shows o input (encode e.program :: e.args.map encode ++ [s.path])
        (asLine (e.displayCommand s.path))

theorem Prints.exists_shows {s : Selection} {rest : Input} {line : Bytes}
    (h : o.Prints s.path line) (hs : Selection.read input = (.ok s, rest)) :
    ∃ words, Shows o input words (asLine line) := by
  cases h with
  | path hm => exact ⟨_, .path hm hs⟩
  | command hm he => exact ⟨_, .command hm he hs⟩

/-- Standard output has what is to be written, as far as it takes that. -/
theorem Course.exists_shows (h : Course host o input r) :
    ∃ words text, Shows o input words text ∧ r.written <+: text := by
  cases h with
  | unresolved | unreadable => exact ⟨[], [], .nothing, List.nil_prefix⟩
  | @cutOff s rest line f hs hline =>
      obtain ⟨words, hshows⟩ := hline.exists_shows hs
      refine ⟨words, asLine line, hshows, ?_⟩
      rw [written_warnings_append, Record.written_ofTaken]
      exact List.take_prefix f.room (asLine line)
  | @printed s rest line hs hline =>
      obtain ⟨words, hshows⟩ := hline.exists_shows hs
      refine ⟨words, asLine line, hshows, [], ?_⟩
      rw [written_warnings_append, Record.written_wrote, List.append_nil]
  | launched =>
      rw [written_warnings_append]
      exact ⟨[], [], .nothing, List.nil_prefix⟩

end Opening

/-! ## Escape sequences on standard output -/

/-- The byte that every escape sequence starts with. -/
def escape : UInt8 := 0x1B

/-- The kind of escape sequences that terminals are controlled with: behind an escape character and
`[` stand parameters, then intermediate bytes, then a final byte. -/
inductive ControlSequence : Bytes → Prop where
  | mk {parameters intermediates : Bytes} {final : UInt8} :
      (∀ b ∈ parameters, 0x30 ≤ b ∧ b ≤ 0x3F) → (∀ b ∈ intermediates, 0x20 ≤ b ∧ b ≤ 0x2F) →
      0x40 ≤ final ∧ final ≤ 0x7E →
      ControlSequence (escape :: '['.toUInt8 :: (parameters ++ intermediates ++ [final]))

/-- The ones among them that set colours. They have no intermediate bytes. -/
inductive ColourSequence : Bytes → Prop where
  | mk {parameters : Bytes} : (∀ b ∈ parameters, 0x30 ≤ b ∧ b ≤ 0x3F) →
      ColourSequence (escape :: '['.toUInt8 :: (parameters ++ ['m'.toUInt8]))

/-- Quoting adds no byte of a colour sequence. -/
theorem ColourSequence.not_mem_marks {t : Bytes} (h : ColourSequence t) :
    ∀ b ∈ t, b ∉ Words.marks := by
  obtain ⟨hparameters⟩ := h
  have hmarks : Words.marks.all (fun b => ¬ (0x30 ≤ b ∧ b ≤ 0x3F)) = true := by decide
  intro b hb hmark
  simp only [List.mem_cons, List.mem_append, List.not_mem_nil, or_false] at hb
  rcases hb with rfl | rfl | hb | rfl
  · exact absurd hmark (by decide)
  · exact absurd hmark (by decide)
  · exact of_decide_eq_true (List.all_eq_true.mp hmarks b hmark) (hparameters b hb)
  · exact absurd hmark (by decide)

/-- **Quoting can complete a control sequence.** A word of the editor ends within one, and the
quotation mark and the space behind it are bytes that may stand before the final byte. So the command
line has a control sequence that neither the words of the editor nor the path has. -/
theorem control_sequence_from_quoting :
    let host : Host := ⟨none, fun _ => .error .noSuchFile⟩
    let env : Environment := [("EDITOR", encode "vi '\x1b[1'")]
    let stdin : Input := [.data (encode "m:1:x\n")]
    let commandLine := ["grepedit", "--dry-run"].map encode
    let sequence := encode "\x1b[1' m"
    Request.parse commandLine (env.bytes? editorVariable) =
        .ok ⟨some "vi '\x1b[1'", false, true, false, none⟩ ∧
      Editor.parse (some "vi '\x1b[1'") = .ok ⟨"vi", ["\x1b[1"], by decide⟩ ∧
      Selection.read stdin = (.ok (.matched (encode "m")), []) ∧
      (run host ⟨commandLine, env, stdin⟩).attempts = [] ∧
      (run host ⟨commandLine, env, stdin⟩).outcome.stdout = encode "vi '\x1b[1' m\n" ∧
      ControlSequence sequence ∧
      sequence <:+: (run host ⟨commandLine, env, stdin⟩).outcome.stdout ∧
      ∀ w ∈ ["vi", "\x1b[1", "m"].map encode, ¬ sequence <:+: w := by
  intro host env stdin commandLine sequence
  have hstdout : (run host ⟨commandLine, env, stdin⟩).outcome.stdout =
      encode "vi '\x1b[1' m\n" := by decide +kernel
  have hsequence : ControlSequence
      (escape :: '['.toUInt8 :: ([0x31] ++ [0x27, 0x20] ++ ['m'.toUInt8])) :=
    .mk (by simp) (by simp) (by decide)
  refine ⟨rfl, rfl, rfl, by decide +kernel, hstdout, hsequence, ?_, by decide⟩
  rw [hstdout]
  exact ⟨encode "vi '", encode "\n", rfl⟩

namespace Opening

variable {o : Opening} {input : Input} {words : List Bytes} {text t : Bytes}

theorem Shows.count_escape (h : Shows o input words text) :
    text.count escape = words.flatten.count escape := by
  have hnewline : [newline].count escape = 0 := by decide
  have hescape : escape ∉ Words.marks := by decide
  cases h with
  | nothing => rfl
  | path => rw [asLine, List.count_append, hnewline, List.flatten_singleton, Nat.add_zero]
  | command =>
      rw [asLine, List.count_append, hnewline, Nat.add_zero]
      exact Words.count_commandLine _ hescape

theorem infix_of_infix_asLine {line : Bytes} (hne : t ≠ []) (hnewline : newline ∉ t)
    (hin : t <:+: asLine line) : t <:+: line := by
  rcases Words.infix_of_infix_append_cons hnewline hin with hin | hin
  · exact hin
  · exact absurd (List.infix_nil.mp hin) hne

/-- A part of the text is a part of one of the words, unless it has a byte that is added to them:
in a command line any mark, and otherwise only the newline at the end. -/
theorem Shows.exists_of_infix (h : Shows o input words text) (hhead : t.head? = some escape)
    (ht : (∀ b ∈ t, b ∉ Words.marks) ∨ o.mode ≠ .dryRun ∧ newline ∉ t) (hin : t <:+: text) :
    ∃ w ∈ words, t <:+: w := by
  have hne : t ≠ [] := by
    rintro rfl
    cases hhead
  have hnewline : newline ∉ t := by
    rcases ht with ht | ⟨-, hnewline⟩
    · exact fun hmem => ht newline hmem (by decide)
    · exact hnewline
  cases h with
  | nothing => exact absurd (List.infix_nil.mp hin) hne
  | @path s =>
      exact ⟨s.path, List.mem_singleton.mpr rfl, infix_of_infix_asLine hne hnewline hin⟩
  | command hm =>
      have hmarks := ht.resolve_right fun h => h.1 hm
      exact Words.infix_of_infix_commandLine hne hmarks (infix_of_infix_asLine hne hnewline hin)

end Opening

/-! ## Two runs -/

/-- The variables that are there to set whether colour is used. -/
def Colour.settings : List String :=
  ["FORCE_COLOR", "CLICOLOR_FORCE", "NO_COLOR", "TERM", "CLICOLOR", "IGNORE_IS_TERMINAL"]

/-- **Settings of colour show in the labels of diagnostics only.** Standard error is no terminal. Two
runs on the same command line and the same input, in environments that differ in these settings
alone, do the same and leave the same input unread. If neither starts a program, as none is attempted
or the system refuses both in the same way, they have the same exit code and the same standard
output, and on standard error the same diagnostics, all of them with colour or all of them without.
Escape sequences on standard output come from the words that it shows, unless they have bytes that
quoting adds. No colour sequence has such bytes, and without quoting only the newline at the end is
added. -/
theorem colour_only_in_labels (host : Host) (start : List Bytes → Except StartFailure Outcome)
    (commandLine : List Bytes) (env env' : Environment) (stdin : Input) (request : Request)
    (henv : ∀ name ∉ Colour.settings, env.bytes? name = env'.bytes? name)
    (hparse : Request.parse commandLine (env.bytes? editorVariable) = .ok request)
    (hc : request.completions = none)
    (hstart : ∀ words ∈ (run host ⟨commandLine, env, stdin⟩).attempts, (∀ w ∈ words, 0 ∉ w) →
      ∃ failure, host.start words = .error failure ∧ start words = .error failure) :
    let r := run host ⟨commandLine, env, stdin⟩
    let r' := run { host with start } ⟨commandLine, env', stdin⟩
    r'.actions = r.actions ∧ r'.unread = r.unread ∧
      r'.outcome.code = r.outcome.code ∧ r'.outcome.stdout = r.outcome.stdout ∧
      Diagnostic.uncoloured r'.outcome.stderr = Diagnostic.uncoloured r.outcome.stderr ∧
      (∃ ds, r.outcome.stderr = Diagnostic.lines (Colour.forDiagnostics env) ds ∧
        r'.outcome.stderr = Diagnostic.lines (Colour.forDiagnostics env') ds) ∧
      ∃ words text, (Plan.openingOf request).Shows stdin words text ∧ r.outcome.stdout <+: text ∧
        r.outcome.stdout.count escape ≤ words.flatten.count escape ∧
        (∀ t, t.head? = some escape → t <:+: r.outcome.stdout →
          (∀ b ∈ t, b ∉ Words.marks) ∨
            (Plan.openingOf request).mode ≠ .dryRun ∧ newline ∉ t → ∃ w ∈ words, t <:+: w) ∧
        ∀ t, ColourSequence t → t <:+: r.outcome.stdout → ∃ w ∈ words, t <:+: w := by
  have hparse' : Request.parse commandLine (env'.bytes? editorVariable) = .ok request := by
    rw [← henv editorVariable (by decide)]
    exact hparse
  rw [run_of_request hparse hc] at hstart
  have hrecord : (Plan.openingOf request).run { host with start } stdin =
      (Plan.openingOf request).run host stdin := by
    refine Opening.run_congr_start fun words hwords hclean => ?_
    obtain ⟨failure, hfailure, hfailure'⟩ := hstart words hwords hclean
    exact hfailure'.trans hfailure.symm
  have hcourse := Opening.course_run host (Plan.openingOf request) stdin
  have hnothing : ((Plan.openingOf request).run host stdin).StartsNothing := by
    refine hcourse.startsNothing fun words hwords hclean => ?_
    obtain ⟨failure, hfailure, -⟩ := hstart words hwords hclean
    exact ⟨failure, hfailure⟩
  obtain ⟨words, text, hshows, hprefix⟩ := hcourse.exists_shows
  -- both runs have the record of one opening, and colour comes in where it is written out
  rw [run_of_request hparse hc, run_of_request hparse' hc, Run.opening, Run.opening, hrecord]
  generalize (Plan.openingOf request).run host stdin = record at hnothing hprefix
  simp only [hnothing.stdout_outcomeOf, hnothing.stderr_outcomeOf]
  refine ⟨trivial, trivial, record.code_outcomeOf _ _, trivial, Diagnostic.uncoloured_lines _ _ _,
    ⟨record.diagnostics, rfl, rfl⟩, words, text, hshows, hprefix, ?_, ?_, ?_⟩
  · rw [← hshows.count_escape]
    exact hprefix.sublist.count_le escape
  · intro t hhead hin ht
    exact hshows.exists_of_infix hhead ht (hin.trans hprefix.isInfix)
  · intro t ht hin
    refine hshows.exists_of_infix ?_ (.inl ht.not_mem_marks) (hin.trans hprefix.isInfix)
    cases ht
    rfl

/-- A demand for colour that no refusal revokes, and one that is no text. A launch that is refused has
a warning and an error, in colour or not; a command line has the escape sequences of its words. -/
theorem colour_only_in_labels_refused :
    let refuse : List Bytes → Except StartFailure Outcome := fun _ => .error (.refused "refused")
    let host : Host := ⟨none, refuse⟩
    let env : Environment := [("EDITOR", encode "vi '\x1b[1m'"), ("FORCE_COLOR", encode "1"),
      ("NO_COLOR", [])]
    let env' : Environment := [("EDITOR", encode "vi '\x1b[1m'"), ("FORCE_COLOR", [0xFF]),
      ("TERM", encode "dumb")]
    let stdin : Input := [.data (encode "\x1b[31ma b")]
    let launch := [encode "grepedit"]
    let dryRun := ["grepedit", "-qn"].map encode
    (run host ⟨launch, env, stdin⟩).outcome.stderr = encode
      ("\x1b[33mwarning:\x1b[39m no ':' in last line; using the whole line as the path\n" ++
        "\x1b[31;1merror:\x1b[0m failed to launch editor: vi: refused\n") ∧
      Diagnostic.uncoloured (run host ⟨launch, env, stdin⟩).outcome.stderr =
        (run host ⟨launch, env', stdin⟩).outcome.stderr ∧
      (run host ⟨launch, env', stdin⟩).outcome.code = 1 ∧
      (run host ⟨dryRun, env', stdin⟩).outcome.stdout =
        encode "vi '\x1b[1m' '\x1b[31ma b'\n" ∧
      ∃ words text, (Opening.mk (some "vi '\x1b[1m'") .dryRun true).Shows stdin words text ∧
        (run host ⟨dryRun, env, stdin⟩).outcome.stdout <+: text ∧
        ∃ w ∈ words, encode "\x1b[31m" <:+: w := by
  intro refuse host env env' stdin launch dryRun
  have henv : ∀ name ∉ Colour.settings, env.bytes? name = env'.bytes? name := by
    intro name hname
    have hne : ∀ setting ∈ Colour.settings, (name == setting) = false := by
      intro setting hmem
      exact beq_eq_false_iff_ne.mpr fun heq => hname (heq ▸ hmem)
    simp only [env, env', Environment.bytes?, List.lookup_cons, hne "FORCE_COLOR" (by decide),
      hne "NO_COLOR" (by decide), hne "TERM" (by decide)]
  have hstart : ∀ words : List Bytes,
      ∃ failure, refuse words = .error failure ∧ refuse words = .error failure :=
    fun words => ⟨.refused "refused", rfl, rfl⟩
  obtain ⟨-, -, hcode, -, hstderr, -⟩ := colour_only_in_labels host refuse launch env env' stdin
    ⟨some "vi '\x1b[1m'", false, false, false, none⟩ henv rfl rfl fun words _ _ => hstart words
  obtain ⟨-, -, -, hstdout, -, -, words, text, hshows, hprefix, -, -, hcolours⟩ :=
    colour_only_in_labels host refuse dryRun env env' stdin
      ⟨some "vi '\x1b[1m'", false, true, true, none⟩ henv rfl rfl fun words _ _ => hstart words
  have hline : (run host ⟨dryRun, env, stdin⟩).outcome.stdout =
      encode "vi '\x1b[1m' '\x1b[31ma b'\n" := by decide +kernel
  have hcolour : ColourSequence (escape :: '['.toUInt8 :: ([0x33, 0x31] ++ ['m'.toUInt8])) :=
    .mk (by simp)
  refine ⟨by decide +kernel, ?_, hcode.trans rfl, hstdout.trans hline, words, text, hshows,
    hprefix, ?_⟩
  · exact hstderr.symm.trans (by decide +kernel)
  · refine hcolours _ hcolour ?_
    rw [hline]
    exact ⟨encode "vi '\x1b[1m' '", encode "a b'\n", rfl⟩

end LastMatch
