import LastMatch.Proofs.StandIn

/-!
# Answers that come at once

Some answers are given only at the word that calls for them: help, the version, and the refusals of
what is no option or of a value for an option that takes none. The others speak of an option that is
given, and can come later than its word, since the option may still be open (`Refusal.Late`). At the
end of the command line only these are left. So where the first kind of answer is given, a word was
read that gives it, and whatever follows this word is not looked at, nor is the variable.
-/

namespace LastMatch

open Utf8

/-- An answer that is given at the word that calls for it, and nowhere else. -/
inductive Halt.AtOnce : Halt → Prop where
  | help (full : Bool) : AtOnce (.help full)
  | version : AtOnce .version
  | unknown (word : String) (similar : Option Opt) (usage : List Opt) :
      AtOnce (.refused (.unknown word similar usage))
  | unexpectedValue (o : Opt) (value : String) (given : List Opt) :
      AtOnce (.refused (.unexpectedValue o value given))

/-- A refusal of an option that is given: of its value, or of the option beside the others. -/
inductive Refusal.Late : Refusal → Prop where
  | missingValue (o : Opt) : Late (.missingValue o)
  | invalidChoice (o : Opt) (value : String) : Late (.invalidChoice o value)
  | notText : Late .notText
  | repeated (o : Opt) : Late (.repeated o)
  | conflict (first second : Opt) (usage : List Opt) : Late (.conflict first second usage)

theorem Refusal.Late.not_atOnce {refusal : Refusal} (h : refusal.Late) :
    ¬ (Halt.refused refusal).AtOnce := by
  intro honce
  cases h <;> cases honce

namespace Reading

variable {r : Reading} {o : Opt} {v : Bytes} {refusal : Refusal} {h : Halt}
  {inherited : Option Bytes}

/-! ## What can be refused late -/

theorem late_of_give (hr : (r.give o).2 = some refusal) : refusal.Late := by
  unfold give at hr
  split at hr
  · cases hr
    exact .repeated o
  · cases hr

theorem late_of_store (hr : (r.store o v).2 = some refusal) : refusal.Late := by
  cases o with
  | completions =>
      simp only [store] at hr
      split at hr
      · cases hr
      · split at hr
        · cases hr
          exact .missingValue _
        · cases hr
          exact .invalidChoice _ _
  | _ =>
      simp only [store] at hr
      split at hr
      · cases hr
      · cases hr
        exact .notText

theorem late_of_assign (hr : (r.assign o v).2 = some refusal) : refusal.Late := by
  unfold assign at hr
  split at hr
  · exact late_of_store hr
  · exact late_of_give hr

theorem late_of_close (hr : r.close.2 = some refusal) : refusal.Late := by
  unfold close at hr
  split at hr
  · cases hr
  · cases hr
    exact .missingValue _
  · exact late_of_assign hr

theorem exists_of_accept {x : Reading × Option Refusal} (hx : accept x = .error h) :
    ∃ refusal, x.2 = some refusal ∧ h = .refused refusal := by
  obtain ⟨r, _ | refusal⟩ := x
  · cases hx
  · cases hx
    exact ⟨refusal, rfl, rfl⟩

theorem late_of_fallBack (hr : r.fallBack inherited = .error h) :
    ∃ refusal, h = .refused refusal ∧ refusal.Late := by
  cases inherited with
  | none => cases hr
  | some v =>
      by_cases hmem : .editor ∈ r.given
      · rw [fallBack_of_mem hmem] at hr
        cases hr
      · rw [fallBack, if_neg hmem] at hr
        obtain ⟨refusal, hassign, rfl⟩ := exists_of_accept hr
        exact ⟨refusal, rfl, late_of_assign hassign⟩

/-- At the end of the command line nothing else is refused. -/
theorem late_of_finish (hr : r.finish inherited = .error h) :
    ∃ refusal, h = .refused refusal ∧ refusal.Late := by
  rcases exists_of_bind_eq_error hr with hclose | ⟨r₁, -, hrest⟩
  · obtain ⟨refusal, hrefusal, rfl⟩ := exists_of_accept hclose
    exact ⟨refusal, rfl, late_of_close hrefusal⟩
  rcases exists_of_bind_eq_error hrest with hfall | ⟨r₂, -, hend⟩
  · exact late_of_fallBack hfall
  · obtain ⟨a, b, usage, rfl⟩ := conflict_of_conclude hend
    exact ⟨_, rfl, .conflict a b usage⟩

end Reading

/-! ## Words behind an answer -/

namespace Request

variable {commandLine : List Bytes} {inherited : Option Bytes} {h : Halt}

/-- An answer that comes at once comes from the words. -/
theorem foldlM_of_atOnce (hparse : parse commandLine inherited = .error h) (hh : h.AtOnce) :
    (commandLine.drop 1).foldlM Reading.step Reading.start = .error h := by
  rcases exists_of_bind_eq_error hparse with hrun | ⟨r, -, hfinish⟩
  · exact hrun
  · obtain ⟨refusal, rfl, hlate⟩ := Reading.late_of_finish hfinish
    exact absurd hh hlate.not_atOnce

/-- What the words of a command line answer, they answer whatever follows. -/
theorem parse_append_of_foldlM {name : Bytes} {words : List Bytes}
    (hrun : words.foldlM Reading.step Reading.start = .error h) (later : List Bytes)
    (inherited : Option Bytes) : parse (name :: words ++ later) inherited = .error h := by
  show ((words ++ later).foldlM Reading.step Reading.start >>= _) = _
  rw [List.foldlM_append, hrun]
  rfl

end Request

/-- **Reading stops at the first word that is answered.** Where help or the version is asked for,
or something is refused that is no option or takes no value, further words change nothing, whatever
they are: the answer is the same, with the same text, exit code and stream, and the variable takes
no part in it either. -/
theorem answer_stands (commandLine later : List Bytes) (inherited : Option Bytes) (h : Halt)
    (hparse : Request.parse commandLine inherited = .error h) (hh : h.AtOnce) :
    (∀ inherited', Request.parse (commandLine ++ later) inherited' = .error h) ∧
    h.text (calledName (commandLine ++ later)) = h.text (calledName commandLine) ∧
    ∀ host env stdin,
      run host ⟨commandLine ++ later, env, stdin⟩ = run host ⟨commandLine, env, stdin⟩ := by
  have hrun := Request.foldlM_of_atOnce hparse hh
  cases commandLine with
  | nil => cases hrun
  | cons name words =>
      have hlater : ∀ later' inherited',
          Request.parse (name :: words ++ later') inherited' = .error h :=
        fun later' inherited' => Request.parse_append_of_foldlM hrun later' inherited'
      refine ⟨hlater later, rfl, ?_⟩
      intro host env stdin
      refine run_congr_commandLine ?_ rfl
      rw [hlater later, ← List.append_nil (name :: words), hlater []]

/-- A value for an option that takes none, with another option still open, and behind it a word that
is no text, help, and two options that exclude each other. -/
theorem answer_stands_unexpected :
    let commandLine := ["bin/ge", "-qe", "vi", "--print=1"].map encode
    let later := [[0xFF], encode "-h", encode "-pn"]
    let h : Halt := .refused (.unexpectedValue .print "1" [.quiet])
    let host : Host := ⟨none, fun _ => .error .noSuchFile⟩
    let env : Environment := [("EDITOR", [0xFF])]
    Request.parse commandLine (some [0xFF]) = .error h ∧
      Request.parse (commandLine ++ later) none = .error h ∧
      (run host ⟨commandLine ++ later, env, []⟩).outcome.code = 2 := by
  intro commandLine later h host env
  have hparse : Request.parse commandLine (some [0xFF]) = .error h := rfl
  obtain ⟨hlater, -, hrun⟩ := answer_stands commandLine later _ h hparse (.unexpectedValue _ _ _)
  refine ⟨hparse, hlater none, ?_⟩
  rw [hrun, run_of_error hparse]
  exact Run.code_answering h

end LastMatch
