import LastMatch.Proofs.Phrases

/-!
# What a reading of the options holds

Between two phrases a reading holds the settings that the words so far have made.

* `Holds` says so of a reading in which no option is open.
* `Gives` says that an operation leads to such a reading, or is refused because an option would be
  given twice. Each way to give an option does this.
* `Stands` allows for an option that has its value and is still to be closed: a reading that closes
  to one that holds the settings.
-/

namespace LastMatch

open Utf8

theorem exists_of_bind_eq_ok {ε α β : Type} {x : Except ε α} {f : α → Except ε β} {b : β}
    (h : (x >>= f) = .ok b) : ∃ a, x = .ok a ∧ f a = .ok b := by
  cases x with
  | error e => cases h
  | ok a => exact ⟨a, rfl, h⟩

theorem exists_of_bind_eq_error {ε α β : Type} {x : Except ε α} {f : α → Except ε β} {e : ε}
    (h : (x >>= f) = .error e) : x = .error e ∨ ∃ a, x = .ok a ∧ f a = .error e := by
  cases x with
  | error e' =>
      cases h
      exact .inl rfl
  | ok a => exact .inr ⟨a, rfl, h⟩

theorem Shell.name_of_ofName? {name : String} {s : Shell} (h : ofName? name = some s) :
    s.name = name := by
  simpa using List.find?_some h

/-- The value of an option, and the setting that it makes. -/
inductive Stores : Opt → Bytes → Setting → Prop where
  | editor (command : String) : Stores .editor (encode command) (.editor command)
  | completions (s : Shell) : Stores .completions (encode s.name) (.completions s)

theorem Stores.opt_eq {o : Opt} {v : Bytes} {s : Setting} (h : Stores o v s) : s.opt = o := by
  cases h <;> rfl

namespace Reading

variable {r r' : Reading} {ss : List Setting} {o : Opt} {v : Bytes} {setting : Setting}

/-- The settings are given, and no option is open. -/
structure Holds (r : Reading) (ss : List Setting) : Prop where
  given : r.given = ss.map Setting.opt
  once : (ss.map Setting.opt).Nodup
  editor : ∀ command, r.editor = some command ↔ .editor command ∈ ss
  completions : ∀ s, r.completions = some s ↔ .completions s ∈ ss
  opened : r.opened = none
  ended : r.ended = false

theorem Holds.start : Holds start [] := by
  constructor <;> simp [Reading.start]

/-- An operation leads to the settings, unless one of the options is given twice. -/
def Gives (x : Except Halt Reading) (ss : List Setting) : Prop :=
  (∃ r, x = .ok r ∧ Holds r ss) ∨ (¬ (ss.map Setting.opt).Nodup ∧ ∃ h, x = .error h)

theorem Gives.exists_ok {x : Except Halt Reading} (h : Gives x ss)
    (hn : (ss.map Setting.opt).Nodup) : ∃ r, x = .ok r ∧ Holds r ss :=
  h.resolve_right fun ⟨hdup, _⟩ => hdup hn

theorem Gives.holds {x : Except Halt Reading} (h : Gives x ss) (hx : x = .ok r) : Holds r ss := by
  rcases h with ⟨r', hr', hholds⟩ | ⟨_, e, he⟩
  · rw [hx] at hr'
    cases hr'
    exact hholds
  · rw [hx] at he
    cases he

/-! ## Giving one option -/

theorem nodup_of_append {ts : List Setting} (h : ((ss ++ ts).map Setting.opt).Nodup) :
    (ss.map Setting.opt).Nodup := by
  rw [List.map_append] at h
  exact (List.nodup_append.mp h).1

theorem nodup_snoc {s : Setting} : ((ss ++ [s]).map Setting.opt).Nodup ↔
    (ss.map Setting.opt).Nodup ∧ s.opt ∉ ss.map Setting.opt := by
  rw [List.map_append, List.map_singleton, List.nodup_append]
  constructor
  · rintro ⟨hn, _, hne⟩
    exact ⟨hn, fun hmem => hne _ hmem _ (List.mem_singleton_self _) rfl⟩
  · rintro ⟨hn, hnot⟩
    refine ⟨hn, List.pairwise_singleton .., ?_⟩
    rintro a ha b hb rfl
    exact hnot (List.mem_singleton.mp hb ▸ ha)

/-- One more setting, of an option that is not given yet. -/
theorem Holds.snoc {s : Setting} (h : Holds r ss) (hs : s.opt ∉ ss.map Setting.opt)
    (hgiven : r'.given = r.given ++ [s.opt])
    (heditor : ∀ c, r'.editor = some c ↔ r.editor = some c ∨ s = .editor c)
    (hcompletions : ∀ c, r'.completions = some c ↔ r.completions = some c ∨ s = .completions c)
    (hopened : r'.opened = none) (hended : r'.ended = false) : Holds r' (ss ++ [s]) where
  given := by rw [hgiven, h.given, List.map_append, List.map_singleton]
  once := nodup_snoc.mpr ⟨h.once, hs⟩
  editor c := by rw [heditor, h.editor]; simp [eq_comm]
  completions c := by rw [hcompletions, h.completions]; simp [eq_comm]
  opened := hopened
  ended := hended

theorem Holds.give (h : Holds r ss) (s : Switch) :
    Gives (accept (r.give s.opt)) (ss ++ [.switch s]) := by
  rw [Reading.give]
  split
  · rename_i hmem
    rw [h.given] at hmem
    exact .inr ⟨fun hn => (nodup_snoc.mp hn).2 hmem, _, rfl⟩
  · rename_i hmem
    rw [h.given] at hmem
    exact .inl ⟨_, rfl, h.snoc hmem rfl (by simp) (by simp) h.opened h.ended⟩

/-- What an option given now says is what the reading says of it: nothing was said before. -/
theorem Holds.editor_eq_none (h : Holds r ss) (hnew : Opt.editor ∉ ss.map Setting.opt) :
    r.editor = none := by
  cases hr : r.editor with
  | none => rfl
  | some c => exact absurd (List.mem_map_of_mem ((h.editor c).mp hr)) hnew

theorem Holds.completions_eq_none (h : Holds r ss) (hnew : Opt.completions ∉ ss.map Setting.opt) :
    r.completions = none := by
  cases hr : r.completions with
  | none => rfl
  | some s => exact absurd (List.mem_map_of_mem ((h.completions s).mp hr)) hnew

theorem store_editor (command : String) :
    r.store .editor (encode command) = ({ r with editor := some command }, none) := by
  simp only [store, decode?_encode]

theorem store_completions (s : Shell) :
    r.store .completions (encode s.name) = ({ r with completions := some s }, none) := by
  simp only [store, decode?_encode, Option.bind_some, Shell.ofName?_name]

/-- An option takes only the values that make a setting. -/
theorem exists_stores_of_store (ho : o.takesValue = true) (h : accept (r.store o v) = .ok r') :
    ∃ setting, Stores o v setting := by
  cases o with
  | print | dryRun | quiet | help | version => cases ho
  | editor =>
      cases hd : decode? v with
      | none =>
          simp only [store, hd] at h
          cases h
      | some command =>
          rw [decode?_eq_some_iff.mp hd]
          exact ⟨_, .editor command⟩
  | completions =>
      cases hd : (decode? v).bind Shell.ofName? with
      | none =>
          simp only [store, hd] at h
          split at h <;> cases h
      | some s =>
          obtain ⟨name, hname, hs⟩ := Option.bind_eq_some_iff.mp hd
          rw [decode?_eq_some_iff.mp hname, ← Shell.name_of_ofName? hs]
          exact ⟨_, .completions s⟩

theorem accept_assign_of_mem (h : o ∈ r.given) :
    accept (r.assign o v) = .error (.refused (.repeated o)) := by
  rw [Reading.assign, Reading.give, if_pos h]
  rfl

theorem assign_of_not_mem (h : o ∉ r.given) :
    r.assign o v = { r with given := r.given ++ [o] }.store o v := by
  rw [Reading.assign, Reading.give, if_neg h]

theorem Holds.assign (h : Holds r ss) (hv : Stores o v setting) :
    Gives (accept (r.assign o v)) (ss ++ [setting]) := by
  by_cases hmem : setting.opt ∈ ss.map Setting.opt
  · refine .inr ⟨fun hn => (nodup_snoc.mp hn).2 hmem, _, accept_assign_of_mem ?_⟩
    rwa [h.given, ← hv.opt_eq]
  · rw [assign_of_not_mem (by rwa [h.given, ← hv.opt_eq])]
    cases hv with
    | editor command =>
        rw [store_editor]
        exact .inl ⟨_, rfl, h.snoc hmem rfl (by simp [h.editor_eq_none hmem]) (by simp)
          h.opened h.ended⟩
    | completions s =>
        rw [store_completions]
        exact .inl ⟨_, rfl, h.snoc hmem rfl (by simp)
          (by simp [h.completions_eq_none hmem]) h.opened h.ended⟩

theorem exists_stores_of_assign (ho : o.takesValue = true) (h : accept (r.assign o v) = .ok r') :
    ∃ setting, Stores o v setting := by
  by_cases hmem : o ∈ r.given
  · rw [accept_assign_of_mem hmem] at h
    cases h
  · rw [assign_of_not_mem hmem] at h
    exact exists_stores_of_store ho h

/-! ## Between two phrases -/

/-- The reading closes to one that holds the settings. An option that is open has its value. -/
structure Stands (r : Reading) (ss : List Setting) : Prop where
  ended : r.ended = false
  opened : ∀ o, r.opened ≠ some (o, none)
  closes : ∃ r', accept r.close = .ok r' ∧ Holds r' ss

theorem Holds.stands (h : Holds r ss) : Stands r ss where
  ended := h.ended
  opened := by simp [h.opened]
  closes := ⟨r, by rw [close, h.opened]; rfl, h⟩

theorem close_of_value (h : r.opened = none) :
    { r with opened := some (o, some v) }.close = r.assign o v := by
  cases r
  cases h
  rfl

/-- An option with its value open counts as soon as another option does. -/
theorem Holds.stands_value (h : Holds r ss) (hv : Stores o v setting)
    (hn : ((ss ++ [setting]).map Setting.opt).Nodup) :
    Stands { r with opened := some (o, some v) } (ss ++ [setting]) where
  ended := h.ended
  opened := by simp
  closes := by
    rw [close_of_value h.opened]
    exact (h.assign hv).exists_ok hn

theorem Stands.flag (h : Stands r ss) (s : Switch) (full : Bool) :
    Gives (r.flag s.opt full) (ss ++ [.switch s]) := by
  obtain ⟨r', hclose, hr'⟩ := h.closes
  have hflag : r.flag s.opt full = accept (r'.give s.opt) := by
    rw [Reading.flag, hclose]
    cases s <;> rfl
  rw [hflag]
  exact hr'.give s

/-- Help and the version are answers, and nothing is read behind them. -/
theorem flag_ne_ok (ho : o = .help ∨ o = .version) (full : Bool) : r.flag o full ≠ .ok r' := by
  intro h
  obtain ⟨_, _, hhalt⟩ := exists_of_bind_eq_ok h
  rcases ho with rfl | rfl <;> cases hhalt

theorem Stands.attached (h : Stands r ss) (hv : Stores o v setting) :
    Gives (r.attached o v) (ss ++ [setting]) := by
  obtain ⟨r', hclose, hr'⟩ := h.closes
  rw [Reading.attached, hclose]
  exact hr'.assign hv

theorem Stands.exists_stores_of_attached (h : Stands r ss) (ho : o.takesValue = true)
    (hr : r.attached o v = .ok r') : ∃ setting, Stores o v setting := by
  obtain ⟨r₁, hclose, _⟩ := h.closes
  rw [Reading.attached, hclose] at hr
  exact exists_stores_of_assign ho hr

theorem Stands.openOption (h : Stands r ss) (o : Opt) :
    ∃ r', Holds r' ss ∧ r.openOption o = .ok { r' with opened := some (o, none) } := by
  obtain ⟨r', hclose, hr'⟩ := h.closes
  refine ⟨r', hr', ?_⟩
  rw [Reading.openOption, hclose]
  rfl

/-! ## Letters -/

/-- A letter that is read is the letter of an option. -/
theorem exists_of_letters {b : UInt8} {rest : Bytes} (h : r.letters (b :: rest) = .ok r') :
    ∃ o, Opt.ofLetter? (Char.ofUInt8 b) = some o := by
  cases ho : Opt.ofLetter? (Char.ofUInt8 b) with
  | none =>
      simp only [letters, ho] at h
      split at h <;> cases h
  | some o => exact ⟨o, rfl⟩

theorem letters_flag {b : UInt8} {rest : Bytes} (ho : Opt.ofLetter? (Char.ofUInt8 b) = some o)
    (hv : o.takesValue = false) :
    r.letters (b :: rest) = r.flag o false >>= fun r => r.letters rest := by
  simp only [letters, ho, hv, Bool.false_eq_true, if_false]

theorem letters_switch (s : Switch) (rest : Bytes) :
    r.letters (s.letter.toUInt8 :: rest) = r.flag s.opt false >>= fun r => r.letters rest :=
  letters_flag (Opt.ofLetter?_switch s) (by cases s <;> rfl)

theorem letters_value {v : Bytes} (h : v ≠ []) :
    r.letters (encode "e" ++ v) = r.attached .editor (unmarked v) := by
  cases v with
  | nil => exact absurd rfl h
  | cons a v => rfl

theorem letters_next : r.letters (encode "e") = r.openOption .editor := rfl

/-- The switches of a cluster are given one after another. -/
theorem Stands.letters_append (h : Stands r ss) {sw : List Switch} (tail : Bytes)
    (hn : ((ss ++ sw.map Setting.switch).map Setting.opt).Nodup) :
    ∃ r', Stands r' (ss ++ sw.map Setting.switch) ∧
      r.letters (Switch.letters sw ++ tail) = r'.letters tail := by
  induction sw generalizing r ss with
  | nil => exact ⟨r, by simpa using h, rfl⟩
  | cons s sw ih =>
      rw [List.map_cons, List.append_cons] at hn ⊢
      obtain ⟨r₁, hr₁, hholds⟩ := (h.flag s false).exists_ok (nodup_of_append hn)
      obtain ⟨r', hr', hletters⟩ := ih hholds.stands hn
      refine ⟨r', hr', ?_⟩
      rw [Switch.letters, List.map_cons, List.cons_append, letters_switch, hr₁]
      exact hletters

/-- All that letters can lead to: switches, and perhaps the editor behind them with its value or
without. -/
theorem Stands.letters_cases {ls : Bytes} (h : Stands r ss) (hr : r.letters ls = .ok r') :
    ∃ sw : List Switch,
      (ls = Switch.letters sw ∧ Stands r' (ss ++ sw.map Setting.switch)) ∨
      (∃ v setting, v ≠ [] ∧ ls = Switch.letters sw ++ (encode "e" ++ v) ∧
        Stores .editor (unmarked v) setting ∧
        Stands r' (ss ++ (sw.map Setting.switch ++ [setting]))) ∨
      (∃ r₁, ls = Switch.letters sw ++ encode "e" ∧ Holds r₁ (ss ++ sw.map Setting.switch) ∧
        r' = { r₁ with opened := some (.editor, none) }) := by
  induction ls generalizing r ss with
  | nil =>
      cases hr
      exact ⟨[], .inl ⟨rfl, by simpa using h⟩⟩
  | cons b rest ih =>
      obtain ⟨o, ho⟩ := exists_of_letters hr
      rcases Opt.ofLetter?_cases ho with ⟨s, rfl, rfl⟩ | ⟨rfl, rfl⟩ | hhalt
      · rw [letters_switch] at hr
        obtain ⟨r₁, hr₁, hrest⟩ := exists_of_bind_eq_ok hr
        have hholds := (h.flag s false).holds hr₁
        obtain ⟨sw, hsw⟩ := ih hholds.stands hrest
        refine ⟨s :: sw, ?_⟩
        simpa [Switch.letters] using hsw
      · refine ⟨[], ?_⟩
        cases rest with
        | nil =>
            obtain ⟨r₁, hr₁, hopen⟩ := h.openOption .editor
            cases hopen.symm.trans hr
            exact .inr (.inr ⟨r₁, rfl, by simpa using hr₁, rfl⟩)
        | cons a v =>
            have hattached := (letters_value (List.cons_ne_nil a v)).symm.trans hr
            obtain ⟨setting, hv⟩ := h.exists_stores_of_attached rfl hattached
            exact .inr (.inl ⟨a :: v, setting, List.cons_ne_nil a v, rfl, hv,
              ((h.attached hv).holds hattached).stands⟩)
      · rw [letters_flag ho (by rcases hhalt with rfl | rfl <;> rfl)] at hr
        obtain ⟨r₁, hr₁, _⟩ := exists_of_bind_eq_ok hr
        exact absurd hr₁ (flag_ne_ok hhalt false)

end Reading

end LastMatch
