import LastMatch.Proofs.Holding

/-!
# Requests and the words that present them

A command line is read as a request exactly if its words present the request. `run_phrase` reads a
phrase off as steps, and so whatever is presented is read. For the other direction
`Stands.step_cases` says what a word that is not refused can be, and the recursion on the words goes
past one or two at a time: the value of an option may be the word behind it.
-/

namespace LastMatch

open Utf8

namespace Reading

variable {r r' r₀ r₁ : Reading} {ss : List Setting} {o : Opt} {w v name : Bytes} {setting : Setting}
  {value : Option Bytes} {words : List Bytes} {request : Request}

/-! ## Steps -/

theorem step_eq (h : r.ended = false) : r.step w =
    match Word.ofBytes w with
    | .endOfOptions => .ok { r with ended := true }
    | .long name value => r.long name value
    | .letters ls => r.letters ls
    | .plain w => r.plain w := by
  rw [step, h]
  rfl

theorem foldlM_step_cons : (w :: words).foldlM step r = .ok r' ↔
    ∃ r₁, r.step w = .ok r₁ ∧ words.foldlM step r₁ = .ok r' := by
  rw [List.foldlM_cons]
  constructor
  · exact exists_of_bind_eq_ok
  · rintro ⟨r₁, hr₁, hrest⟩
    rw [hr₁]
    exact hrest

/-- A long name that an option has. -/
theorem long_eq (o : Opt) (value : Option Bytes) : r.long (encode o.long) value =
    match value with
    | none => if o.takesValue then r.openOption o else r.flag o true
    | some v => if o.takesValue then r.attached o v else r.unexpectedValue o v := by
  unfold long
  rw [Opt.decode?_bind_ofLong?_eq_some_iff.mpr rfl]
  cases value <;> rfl

theorem exists_of_long (h : r.long name value = .ok r') : ∃ o : Opt, name = encode o.long := by
  cases ho : (decode? name).bind Opt.ofLong? with
  | none =>
      unfold long at h
      rw [ho] at h
      cases h
  | some o => exact ⟨o, Opt.decode?_bind_ofLong?_eq_some_iff.mp ho⟩

theorem step_switch (h : r.ended = false) (s : Switch) :
    r.step (encode s.word) = r.flag s.opt true := by
  rw [step_eq h, Word.ofBytes_switch]
  exact (long_eq s.opt none).trans (by cases s <;> rfl)

theorem step_cluster (h : r.ended = false) (sw : List Switch) {tail : Bytes}
    (htail : (sw ≠ [] ∧ tail = []) ∨ ∃ v, tail = encode "e" ++ v) :
    r.step (encode "-" ++ (Switch.letters sw ++ tail)) = r.letters (Switch.letters sw ++ tail) := by
  rw [step_eq h, Word.ofBytes_cluster sw htail]

theorem step_open (h : r.ended = false) (ho : o.takesValue = true)
    (hw : Word.ofBytes w = .long (encode o.long) none) : r.step w = r.openOption o := by
  rw [step_eq h, hw]
  exact (long_eq o none).trans (if_pos ho)

theorem step_attached (h : r.ended = false) (ho : o.takesValue = true)
    (hw : Word.ofBytes w = .long (encode o.long) (some v)) : r.step w = r.attached o v := by
  rw [step_eq h, hw]
  exact (long_eq o (some v)).trans (if_pos ho)

/-- A word that can be a value becomes the value of the option that waits for one. -/
theorem step_value (h : r.ended = false) (ho : r.opened = some (o, none)) (hv : IsValue v) :
    r.step v = .ok { r with opened := some (o, some v) } := by
  rw [step_eq h, Word.ofBytes_of_isValue hv]
  show r.plain v = _
  rw [plain, ho]

/-! ## Phrases are read -/

theorem run_one (hstep : r.step w = .ok r') (h : Holds r' ss) :
    ∃ r', [w].foldlM step r = .ok r' ∧ Stands r' ss :=
  ⟨r', foldlM_step_cons.mpr ⟨_, hstep, rfl⟩, h.stands⟩

/-- A word that leaves an option open, and the next word. -/
theorem run_two (h : Stands r ss) (hopen : r₀.step w = r.openOption o)
    (hv : Stores o v setting) (hvalue : IsValue v)
    (hn : ((ss ++ [setting]).map Setting.opt).Nodup) :
    ∃ r', [w, v].foldlM step r₀ = .ok r' ∧ Stands r' (ss ++ [setting]) := by
  obtain ⟨r₁, hr₁, hok⟩ := h.openOption o
  exact ⟨_, foldlM_step_cons.mpr ⟨_, hopen.trans hok, foldlM_step_cons.mpr
    ⟨_, step_value hr₁.ended rfl hvalue, rfl⟩⟩, hr₁.stands_value hv hn⟩

/-- Every phrase is read, unless it gives an option for the second time. -/
theorem run_phrase {ws : List Bytes} {ts : List Setting} (hp : Phrase ws ts) (h : Stands r ss)
    (hn : ((ss ++ ts).map Setting.opt).Nodup) :
    ∃ r', ws.foldlM step r = .ok r' ∧ Stands r' (ss ++ ts) := by
  cases hp with
  | switch s =>
      obtain ⟨r', hr', hholds⟩ := (h.flag s true).exists_ok hn
      exact run_one ((step_switch h.ended s).trans hr') hholds
  | @cluster sw hne =>
      obtain ⟨r', hr', hletters⟩ := h.letters_append [] hn
      have hstep := step_cluster h.ended sw (.inl ⟨hne, rfl⟩)
      rw [List.append_nil] at hstep hletters
      exact ⟨r', foldlM_step_cons.mpr ⟨_, hstep.trans hletters, rfl⟩, hr'⟩
  | @clusterValue sw v command hv hcommand =>
      rw [← List.append_assoc ss] at hn ⊢
      obtain ⟨r₁, hr₁, hletters⟩ := h.letters_append (encode "e" ++ v) (nodup_of_append hn)
      have hstores : Stores .editor (unmarked v) (.editor command) := hcommand ▸ .editor command
      obtain ⟨r', hr', hholds⟩ := (hr₁.attached hstores).exists_ok hn
      refine run_one ?_ hholds
      rw [step_cluster h.ended sw (.inr ⟨v, rfl⟩), hletters, letters_value hv, hr']
  | @clusterNext sw command hvalue =>
      rw [← List.append_assoc ss] at hn ⊢
      obtain ⟨r₁, hr₁, hletters⟩ := h.letters_append (encode "e") (nodup_of_append hn)
      refine run_two hr₁ ?_ (.editor command) hvalue hn
      rw [step_cluster h.ended sw (.inr ⟨[], (List.append_nil _).symm⟩), hletters, letters_next]
  | editorValue command =>
      obtain ⟨r', hr', hholds⟩ := (h.attached (.editor command)).exists_ok hn
      exact run_one ((step_attached h.ended rfl rfl).trans hr') hholds
  | @editorNext command hvalue =>
      exact run_two h (step_open h.ended rfl rfl) (.editor command) hvalue hn
  | completionsValue s =>
      rw [s.word_eq_name]
      obtain ⟨r', hr', hholds⟩ := (h.attached (.completions s)).exists_ok hn
      exact run_one ((step_attached h.ended rfl rfl).trans hr') hholds
  | completionsNext s =>
      rw [s.word_eq_name]
      refine run_two h (step_open h.ended rfl rfl) (.completions s) (.inr ?_) hn
      cases s <;> decide

theorem run_phrases {ws : List Bytes} {ts : List Setting} (hp : Phrases ws ts) (h : Stands r ss)
    (hn : ((ss ++ ts).map Setting.opt).Nodup) :
    ∃ r', ws.foldlM step r = .ok r' ∧ Stands r' (ss ++ ts) := by
  induction hp generalizing r ss with
  | nil => exact ⟨r, rfl, by simpa using h⟩
  | @cons ws vs ss₁ ts hphrase _ ih =>
      rw [← List.append_assoc ss] at hn ⊢
      obtain ⟨r₁, hr₁, hstands⟩ := run_phrase hphrase h (nodup_of_append hn)
      obtain ⟨r', hr', hstands'⟩ := ih hstands hn
      refine ⟨r', ?_, hstands'⟩
      rw [List.foldlM_append, hr₁]
      exact hr'

/-! ## The end of the command line -/

theorem mem_map_opt_iff {s : Switch} : s.opt ∈ ss.map Setting.opt ↔ .switch s ∈ ss := by
  rw [List.mem_map]
  constructor
  · rintro ⟨setting, hmem, heq⟩
    cases setting with
    | switch s' =>
        obtain rfl := Switch.opt_inj.mp heq
        exact hmem
    | editor | completions => cases s <;> cases heq
  · intro hmem
    exact ⟨_, hmem, rfl⟩

theorem conflict?_eq_none_iff :
    r.conflict? = none ↔ ¬ (.print ∈ r.given ∧ .dryRun ∈ r.given) := by
  have hclash : ∀ a b : Opt, (a.excludes? = some b || b.excludes? = some a) = true ↔
      (a = .print ∧ b = .dryRun) ∨ (a = .dryRun ∧ b = .print) := by
    intro a b
    cases a <;> cases b <;> decide
  simp only [conflict?, List.findSome?_eq_none_iff, Option.map_eq_none_iff, List.find?_eq_none,
    hclash]
  constructor
  · rintro h ⟨hp, hd⟩
    exact h _ hp _ hd (.inl ⟨rfl, rfl⟩)
  · rintro h a ha b hb (⟨rfl, rfl⟩ | ⟨rfl, rfl⟩)
    · exact h ⟨ha, hb⟩
    · exact h ⟨hb, ha⟩

/-- With the last option closed, what is left to check is that no option excludes another. -/
theorem finish_of_compatible (hclose : accept r.close = .ok r₁) (hc : r₁.conflict? = none) :
    r.finish none = .ok {
      editor := r₁.editor
      print := .print ∈ r₁.given
      dryRun := .dryRun ∈ r₁.given
      quiet := .quiet ∈ r₁.given
      completions := r₁.completions } := by
  rw [finish, hclose]
  simp only [bind, Except.bind, fallBack, hc]

theorem finish_ne_ok_of_conflict (hclose : accept r.close = .ok r₁) (hc : r₁.conflict? ≠ none) :
    r.finish none ≠ .ok request := by
  obtain ⟨⟨a, b⟩, hpair⟩ := Option.ne_none_iff_exists'.mp hc
  rw [finish, hclose]
  simp only [bind, Except.bind, fallBack, hpair, ne_eq, reduceCtorEq, not_false_eq_true]

/-- The end of the command line is accepted exactly if the settings so far amount to a request. -/
theorem finish_eq_ok_iff (hclose : accept r.close = .ok r₁) (h : Holds r₁ ss) :
    r.finish none = .ok request ↔ Amounts ss request := by
  have hgiven : ∀ s : Switch, s.opt ∈ r₁.given ↔ .switch s ∈ ss := by
    intro s
    rw [h.given, mem_map_opt_iff]
  have hcompatible : r₁.conflict? = none ↔ ¬ (.switch .print ∈ ss ∧ .switch .dryRun ∈ ss) := by
    rw [conflict?_eq_none_iff, ← hgiven, ← hgiven]
    rfl
  constructor
  · intro hok
    have hc : r₁.conflict? = none :=
      Classical.byContradiction fun hc => finish_ne_ok_of_conflict hclose hc hok
    cases (finish_of_compatible hclose hc).symm.trans hok
    exact ⟨h.once, hcompatible.mp hc, decide_eq_true_iff.trans (hgiven .print),
      decide_eq_true_iff.trans (hgiven .dryRun), decide_eq_true_iff.trans (hgiven .quiet),
      h.editor, h.completions⟩
  · intro hamounts
    rw [finish_of_compatible hclose (hcompatible.mpr hamounts.compatible)]
    obtain ⟨editor, print, dryRun, quiet, completions⟩ := request
    have hflag : ∀ (s : Switch) (b : Bool), (b = true ↔ .switch s ∈ ss) →
        decide (s.opt ∈ r₁.given) = b := by
      intro s b hb
      rw [Bool.eq_iff_iff, decide_eq_true_iff, hgiven, hb]
    have heditor : r₁.editor = editor :=
      Option.ext fun command => (h.editor command).trans (hamounts.editor command).symm
    have hcompletions : r₁.completions = completions :=
      Option.ext fun s => (h.completions s).trans (hamounts.completions s).symm
    rw [heditor, hcompletions, ← hflag .print print hamounts.print,
      ← hflag .dryRun dryRun hamounts.dryRun, ← hflag .quiet quiet hamounts.quiet]
    rfl

/-! ### Whether the options have ended

It does not matter to what giving an option does, and it stays as it is.
-/

theorem give_ended (r : Reading) (o : Opt) (b : Bool) :
    { r with ended := b }.give o = ({ (r.give o).1 with ended := b }, (r.give o).2) := by
  simp only [give]
  split <;> rfl

theorem store_ended (r : Reading) (o : Opt) (v : Bytes) (b : Bool) :
    { r with ended := b }.store o v = ({ (r.store o v).1 with ended := b }, (r.store o v).2) := by
  cases o with
  | completions =>
      simp only [store]
      split
      · rfl
      · split <;> rfl
  | _ =>
      simp only [store]
      split <;> rfl

theorem assign_ended (r : Reading) (o : Opt) (v : Bytes) (b : Bool) :
    { r with ended := b }.assign o v =
      ({ (r.assign o v).1 with ended := b }, (r.assign o v).2) := by
  by_cases hmem : o ∈ r.given
  · simp [assign, give, if_pos hmem]
  · simp only [assign, give, if_neg hmem]
    exact store_ended { r with given := r.given ++ [o] } o v b

theorem close_ended (r : Reading) (b : Bool) :
    { r with ended := b }.close = ({ r.close.1 with ended := b }, r.close.2) := by
  obtain ⟨given, opened, editor, completions, ended⟩ := r
  cases opened with
  | none => rfl
  | some pair =>
      obtain ⟨o, _ | v⟩ := pair
      · rfl
      · exact assign_ended ⟨given, none, editor, completions, ended⟩ o v b

theorem ended_give (r : Reading) (o : Opt) : (r.give o).1.ended = r.ended :=
  congrArg (·.1.ended) (give_ended r o r.ended)

theorem ended_assign (r : Reading) (o : Opt) (v : Bytes) : (r.assign o v).1.ended = r.ended :=
  congrArg (·.1.ended) (assign_ended r o v r.ended)

theorem ended_close (r : Reading) : r.close.1.ended = r.ended :=
  congrArg (·.1.ended) (close_ended r r.ended)

/-- Two hyphens at the end change nothing. -/
theorem finish_ended (r : Reading) : { r with ended := true }.finish none = r.finish none := by
  rw [finish, close_ended, finish]
  obtain ⟨r', _ | refusal⟩ := r.close
  · rfl
  · rfl

/-! ## What is read is a phrase -/

/-- What a word that is not refused leads to: to the end of the options, to the settings of a phrase
of one word, or to an option that waits for its value. -/
theorem Stands.step_cases (h : Stands r ss) (hr : r.step w = .ok r') :
    (w = encode "--" ∧ r' = { r with ended := true }) ∨
    (∃ ts, Phrase [w] ts ∧ Stands r' (ss ++ ts)) ∨
    ∃ ts o r₁, Holds r₁ (ss ++ ts) ∧ r' = { r₁ with opened := some (o, none) } ∧
      o.takesValue = true ∧
      ∀ v setting, IsValue v → Stores o v setting → Phrase [w, v] (ts ++ [setting]) := by
  rw [step_eq h.ended] at hr
  have hspelt := Word.spelt_ofBytes w
  generalize Word.ofBytes w = kind at hr hspelt
  cases hspelt with
  | endOfOptions =>
      cases hr
      exact .inl ⟨rfl, rfl⟩
  | @long name =>
      obtain ⟨o, rfl⟩ := exists_of_long hr
      replace hr := (long_eq o none).symm.trans hr
      cases o with
      | print => exact .inr (.inl ⟨_, .switch .print, ((h.flag .print true).holds hr).stands⟩)
      | dryRun => exact .inr (.inl ⟨_, .switch .dryRun, ((h.flag .dryRun true).holds hr).stands⟩)
      | quiet => exact .inr (.inl ⟨_, .switch .quiet, ((h.flag .quiet true).holds hr).stands⟩)
      | help => exact absurd hr (flag_ne_ok (.inl rfl) true)
      | version => exact absurd hr (flag_ne_ok (.inr rfl) true)
      | editor =>
          obtain ⟨r₁, hr₁, hopen⟩ := h.openOption .editor
          cases hopen.symm.trans hr
          refine .inr (.inr ⟨[], .editor, r₁, by simpa using hr₁, rfl, rfl, ?_⟩)
          intro v setting hvalue hv
          cases hv
          exact .editorNext hvalue
      | completions =>
          obtain ⟨r₁, hr₁, hopen⟩ := h.openOption .completions
          cases hopen.symm.trans hr
          refine .inr (.inr ⟨[], .completions, r₁, by simpa using hr₁, rfl, rfl, ?_⟩)
          intro v setting _ hv
          cases hv
          rw [← Shell.word_eq_name]
          exact .completionsNext _
  | @longValue name v =>
      obtain ⟨o, rfl⟩ := exists_of_long hr
      replace hr := (long_eq o (some v)).symm.trans hr
      cases o with
      | print | dryRun | quiet | help | version => cases hr
      | editor =>
          obtain ⟨setting, hv⟩ := h.exists_stores_of_attached rfl hr
          have hholds := (h.attached hv).holds hr
          cases hv
          exact .inr (.inl ⟨_, .editorValue _, hholds.stands⟩)
      | completions =>
          obtain ⟨setting, hv⟩ := h.exists_stores_of_attached rfl hr
          have hholds := (h.attached hv).holds hr
          cases hv
          rw [← Shell.word_eq_name]
          exact .inr (.inl ⟨_, .completionsValue _, hholds.stands⟩)
  | @letters b ls =>
      obtain ⟨sw, ⟨hls, hstands⟩ | ⟨v, setting, hne, hls, hv, hstands⟩ | ⟨r₁, hls, hr₁, rfl⟩⟩ :=
        h.letters_cases hr
      · rw [hls]
        refine .inr (.inl ⟨_, .cluster ?_, hstands⟩)
        rintro rfl
        cases hls
      · rw [hls]
        refine .inr (.inl ⟨_, ?_, hstands⟩)
        generalize hu : unmarked v = u at hv
        cases hv
        exact .clusterValue hne hu
      · rw [hls]
        refine .inr (.inr ⟨_, .editor, r₁, hr₁, rfl, rfl, ?_⟩)
        intro v setting hvalue hv
        cases hv
        exact .clusterNext hvalue
  | plain hvalue =>
      replace hr : r.plain w = .ok r' := hr
      rw [plain] at hr
      split at hr
      · rename_i o ho
        exact absurd ho (h.opened o)
      · cases hr

/-! ## Whole command lines -/

/-- The words to come complete the request. -/
def Completes (r : Reading) (words : List Bytes) (request : Request) : Prop :=
  ∃ r', words.foldlM step r = .ok r' ∧ r'.finish none = .ok request

theorem completes_nil : Completes r [] request ↔ r.finish none = .ok request := by
  constructor
  · rintro ⟨r', hr', hfinish⟩
    cases hr'
    exact hfinish
  · intro hfinish
    exact ⟨r, rfl, hfinish⟩

theorem completes_cons :
    Completes r (w :: words) request ↔ ∃ r', r.step w = .ok r' ∧ Completes r' words request := by
  simp only [Completes, foldlM_step_cons]
  constructor
  · rintro ⟨r', ⟨r₁, hstep, hrest⟩, hfinish⟩
    exact ⟨r₁, hstep, r', hrest, hfinish⟩
  · rintro ⟨r₁, hstep, r', hrest, hfinish⟩
    exact ⟨r', ⟨r₁, hstep, hrest⟩, hfinish⟩

/-- Nothing may follow the two hyphens. -/
theorem completes_ended : Completes { r with ended := true } words request ↔
    words = [] ∧ r.finish none = .ok request := by
  cases words with
  | nil => rw [completes_nil, finish_ended, and_iff_right rfl]
  | cons w words =>
      rw [completes_cons]
      constructor
      · rintro ⟨r', hstep, _⟩
        cases hstep
      · rintro ⟨hnil, _⟩
        cases hnil

/-- A word is a value, or ends the options, or it counts only after the open option is closed. -/
theorem exists_closed_of_step (h : r.ended = false) (hr : r.step w = .ok r') :
    (IsValue w ∧ ∃ o, r.opened = some (o, none) ∧ r' = { r with opened := some (o, some w) }) ∨
    (w = encode "--" ∧ r' = { r with ended := true }) ∨
    ∃ r₁, accept r.close = .ok r₁ := by
  have closed : ∀ {α : Type} {f : Reading → Except Halt α} {a : α},
      (accept r.close >>= f) = .ok a → ∃ r₁, accept r.close = .ok r₁ := by
    intro α f a hf
    obtain ⟨r₁, hclose, _⟩ := exists_of_bind_eq_ok hf
    exact ⟨r₁, hclose⟩
  rw [step_eq h] at hr
  have hspelt := Word.spelt_ofBytes w
  generalize Word.ofBytes w = kind at hr hspelt
  cases hspelt with
  | endOfOptions =>
      cases hr
      exact .inr (.inl ⟨rfl, rfl⟩)
  | @long name =>
      obtain ⟨o, rfl⟩ := exists_of_long hr
      replace hr := (long_eq o none).symm.trans hr
      dsimp only at hr
      split at hr <;> exact .inr (.inr (closed hr))
  | @longValue name v =>
      obtain ⟨o, rfl⟩ := exists_of_long hr
      replace hr := (long_eq o (some v)).symm.trans hr
      dsimp only at hr
      split at hr
      · exact .inr (.inr (closed hr))
      · cases hr
  | @letters b ls =>
      dsimp only at hr
      obtain ⟨o, ho⟩ := exists_of_letters hr
      simp only [letters, ho] at hr
      split at hr
      · split at hr <;> exact .inr (.inr (closed hr))
      · obtain ⟨r₁, hr₁, _⟩ := exists_of_bind_eq_ok hr
        exact .inr (.inr (closed hr₁))
  | plain hvalue =>
      replace hr : r.plain w = .ok r' := hr
      rw [plain] at hr
      split at hr
      · rename_i o ho
        cases hr
        exact .inl ⟨hvalue, o, ho, rfl⟩
      · cases hr

theorem exists_closed_of_finish (h : r.finish none = .ok request) :
    ∃ r₁, accept r.close = .ok r₁ := by
  obtain ⟨r₁, hclose, _⟩ := exists_of_bind_eq_ok h
  exact ⟨r₁, hclose⟩

/-- An option that has its value is closed in the end, so the value is one it takes. -/
theorem Completes.closes (hc : Completes r words request) (h : r.ended = false)
    (hwait : ∀ o, r.opened ≠ some (o, none)) : ∃ r₁, accept r.close = .ok r₁ := by
  cases words with
  | nil => exact exists_closed_of_finish (completes_nil.mp hc)
  | cons w words =>
      obtain ⟨r', hstep, hrest⟩ := completes_cons.mp hc
      rcases exists_closed_of_step h hstep with ⟨_, o, ho, _⟩ | ⟨_, rfl⟩ | hclosed
      · exact absurd ho (hwait o)
      · exact exists_closed_of_finish (completes_ended.mp hrest).2
      · exact hclosed

/-- An option that waits for its value gets it from the next word. -/
theorem Completes.exists_value (hc : Completes { r with opened := some (o, none) } words request)
    (h : r.ended = false) :
    ∃ v rest, words = v :: rest ∧ IsValue v ∧
      Completes { r with opened := some (o, some v) } rest request := by
  have hopen : ¬ ∃ r₁, accept { r with opened := some (o, none) }.close = .ok r₁ := by
    rintro ⟨r₁, hr₁⟩
    cases hr₁
  cases words with
  | nil => exact absurd (exists_closed_of_finish (completes_nil.mp hc)) hopen
  | cons w words =>
      obtain ⟨r', hstep, hrest⟩ := completes_cons.mp hc
      have hended : { r with opened := some (o, none) }.ended = false := h
      rcases exists_closed_of_step hended hstep with ⟨hvalue, o', ho', rfl⟩ | ⟨_, rfl⟩ | hclosed
      · cases ho'
        exact ⟨w, words, rfl, hvalue, hrest⟩
      · exact absurd (exists_closed_of_finish (completes_ended.mp hrest).2) hopen
      · exact absurd hclosed hopen

/-- The words to come present the request, together with the settings so far. -/
def Continues (ss : List Setting) (words : List Bytes) (request : Request) : Prop :=
  ∃ phrases settings, (words = phrases ∨ words = phrases ++ [encode "--"]) ∧
    Phrases phrases settings ∧ Amounts (ss ++ settings) request

theorem Continues.nil (h : Amounts ss request) : Continues ss [] request :=
  ⟨[], [], .inl rfl, .nil, by rwa [List.append_nil]⟩

theorem Continues.ended (h : Amounts ss request) : Continues ss [encode "--"] request :=
  ⟨[], [], .inr rfl, .nil, by rwa [List.append_nil]⟩

theorem Continues.phrase {ws : List Bytes} {ts : List Setting} (hp : Phrase ws ts)
    (h : Continues (ss ++ ts) words request) : Continues ss (ws ++ words) request := by
  obtain ⟨phrases, settings, hwords, hphrases, hamounts⟩ := h
  refine ⟨ws ++ phrases, ts ++ settings, ?_, .cons hp hphrases, by rwa [← List.append_assoc]⟩
  rcases hwords with rfl | rfl
  · exact .inl rfl
  · exact .inr (List.append_assoc ..).symm

/-- What completes a request presents it. A phrase takes one word or two, so the recursion is on
their number. -/
theorem Stands.continues {r : Reading} {ss : List Setting} {words : List Bytes} (h : Stands r ss)
    (hc : Completes r words request) : Continues ss words request := by
  obtain ⟨r₀, hclose, hr₀⟩ := h.closes
  match words with
  | [] => exact .nil ((finish_eq_ok_iff hclose hr₀).mp (completes_nil.mp hc))
  | w :: words =>
      obtain ⟨r', hstep, hrest⟩ := completes_cons.mp hc
      rcases h.step_cases hstep with
        ⟨rfl, rfl⟩ | ⟨ts, hphrase, hstands⟩ | ⟨ts, o, r₁, hr₁, rfl, ho, hphrase⟩
      · obtain ⟨rfl, hfinish⟩ := completes_ended.mp hrest
        exact .ended ((finish_eq_ok_iff hclose hr₀).mp hfinish)
      · exact (hstands.continues hrest).phrase hphrase
      · obtain ⟨v, rest, rfl, hvalue, hrest⟩ := hrest.exists_value hr₁.ended
        -- Whether the option takes the value shows only when it is closed, after later words.
        obtain ⟨r₂, hr₂⟩ := hrest.closes hr₁.ended (by simp)
        rw [close_of_value hr₁.opened] at hr₂
        obtain ⟨setting, hv⟩ := exists_stores_of_assign ho hr₂
        have hstands := hr₁.stands_value hv ((hr₁.assign hv).holds hr₂).once
        have hcontinues := hstands.continues hrest
        rw [List.append_assoc] at hcontinues
        exact hcontinues.phrase (hphrase v setting hvalue hv)
termination_by words.length

/-- What presents a request completes it. -/
theorem Stands.completes (h : Stands r ss) (hc : Continues ss words request) :
    Completes r words request := by
  obtain ⟨phrases, settings, hwords, hphrases, hamounts⟩ := hc
  obtain ⟨r', hrun, hr'⟩ := run_phrases hphrases h hamounts.once
  obtain ⟨r₀, hclose, hr₀⟩ := hr'.closes
  have hfinish := (finish_eq_ok_iff hclose hr₀).mpr hamounts
  rcases hwords with rfl | rfl
  · exact ⟨r', hrun, hfinish⟩
  · refine ⟨{ r' with ended := true }, ?_, (finish_ended r').trans hfinish⟩
    rw [List.foldlM_append, hrun]
    refine foldlM_step_cons.mpr ⟨_, ?_, rfl⟩
    rw [step_eq hr'.ended]
    rfl

end Reading

/-- A command line is read as a request if and only if its words, without the program's name,
present the request. -/
theorem request_iff_presents (commandLine : List Bytes) (request : Request) :
    Request.parse commandLine none = .ok request ↔ Presents (commandLine.drop 1) request := by
  have hparse : Request.parse commandLine none = .ok request ↔
      Reading.Completes .start (commandLine.drop 1) request := by
    rw [Request.parse]
    constructor
    · exact exists_of_bind_eq_ok
    · rintro ⟨r', hrun, hfinish⟩
      rw [hrun]
      exact hfinish
  have hstart : Reading.Stands .start [] := Reading.Holds.start.stands
  exact hparse.trans ⟨hstart.continues, hstart.completes⟩

example : Request.parse (["vim", "-qpe", "vi", "--completions=fish", "--"].map encode) none =
    .ok ⟨some "vi", true, false, true, some .fish⟩ := rfl

end LastMatch
