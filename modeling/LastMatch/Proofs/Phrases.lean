import LastMatch.Options.Parse
import LastMatch.Proofs.Texts

/-!
# The grammar of command lines

What the words of a command line say, told without a reader. A command line is a sequence of
phrases, each of one or two words, and perhaps two hyphens at its end.

* `Setting` is one thing that a command line can say.
* `Phrase` relates a phrase to its settings: a long name or a cluster of letters, with the value of
  the last option in the same word or in the next one.
* `Amounts` says when settings make up a request: no option twice, and none beside one that excludes
  it.
* `Presents` relates all the words to the request.

The rest of the module is about single words: how they are told apart, and which options they name.
-/

namespace LastMatch

open Utf8

/-! ## Settings -/

/-- An option without a value. -/
inductive Switch where
  | print
  | dryRun
  | quiet
  deriving DecidableEq, Repr

namespace Switch

def word : Switch → String
  | print => "--print"
  | dryRun => "--dry-run"
  | quiet => "--quiet"

def letter : Switch → Char
  | print => 'p'
  | dryRun => 'n'
  | quiet => 'q'

def opt : Switch → Opt
  | print => .print
  | dryRun => .dryRun
  | quiet => .quiet

theorem opt_inj {s t : Switch} : s.opt = t.opt ↔ s = t := by
  cases s <;> cases t <;> decide

/-- The letters of some switches, in this order. -/
def letters (ss : List Switch) : Bytes := ss.map (·.letter.toUInt8)

end Switch

/-- How a shell is spelt as the value of an option. -/
def Shell.word : Shell → String
  | bash => "bash"
  | elvish => "elvish"
  | fish => "fish"
  | powershell => "powershell"
  | zsh => "zsh"

theorem Shell.word_eq_name (s : Shell) : s.word = s.name := by
  cases s <;> rfl

/-- One thing that a command line can say. -/
inductive Setting where
  | switch (s : Switch)
  | editor (command : String)
  | completions (s : Shell)
  deriving DecidableEq, Repr

namespace Setting

/-- The option that the setting is of. -/
def opt : Setting → Opt
  | switch s => s.opt
  | editor _ => .editor
  | completions _ => .completions

end Setting

/-! ## Phrases -/

/-- Can the word be the value of the option before it? It can, unless it looks like an option. -/
def IsValue (w : Bytes) : Prop := w = encode "-" ∨ w.head? ≠ some '-'.toUInt8

/-- A value that stands behind a letter, without the one `=` that may part them. -/
def unmarked : Bytes → Bytes
  | b :: v => if b = '='.toUInt8 then v else b :: v
  | [] => []

/-- One or two words, and the settings that they make. -/
inductive Phrase : List Bytes → List Setting → Prop where
  | switch (s : Switch) : Phrase [encode s.word] [.switch s]
  | cluster {ss : List Switch} : ss ≠ [] →
      Phrase [encode "-" ++ Switch.letters ss] (ss.map .switch)
  | clusterValue {ss : List Switch} {v : Bytes} {command : String} : v ≠ [] →
      unmarked v = encode command →
      Phrase [encode "-" ++ (Switch.letters ss ++ (encode "e" ++ v))]
        (ss.map .switch ++ [.editor command])
  | clusterNext {ss : List Switch} {command : String} : IsValue (encode command) →
      Phrase [encode "-" ++ (Switch.letters ss ++ encode "e"), encode command]
        (ss.map .switch ++ [.editor command])
  | editorValue (command : String) :
      Phrase [encode "--editor=" ++ encode command] [.editor command]
  | editorNext {command : String} : IsValue (encode command) →
      Phrase [encode "--editor", encode command] [.editor command]
  | completionsValue (s : Shell) :
      Phrase [encode "--completions=" ++ encode s.word] [.completions s]
  | completionsNext (s : Shell) :
      Phrase [encode "--completions", encode s.word] [.completions s]

/-- Some phrases, one after another. -/
inductive Phrases : List Bytes → List Setting → Prop where
  | nil : Phrases [] []
  | cons {ws vs : List Bytes} {ss ts : List Setting} : Phrase ws ss → Phrases vs ts →
      Phrases (ws ++ vs) (ss ++ ts)

/-! ## Requests -/

/-- The settings make up the request. No option is given twice, and the path and the command line
are not both to be printed. -/
structure Amounts (ss : List Setting) (r : Request) : Prop where
  once : (ss.map Setting.opt).Nodup
  compatible : ¬ (.switch .print ∈ ss ∧ .switch .dryRun ∈ ss)
  print : r.print = true ↔ .switch .print ∈ ss
  dryRun : r.dryRun = true ↔ .switch .dryRun ∈ ss
  quiet : r.quiet = true ↔ .switch .quiet ∈ ss
  editor : ∀ command, r.editor = some command ↔ .editor command ∈ ss
  completions : ∀ s, r.completions = some s ↔ .completions s ∈ ss

/-- The words say, in some order, what the request holds. -/
def Presents (words : List Bytes) (r : Request) : Prop :=
  ∃ phrases settings, (words = phrases ∨ words = phrases ++ [encode "--"]) ∧
    Phrases phrases settings ∧ Amounts settings r

/-! ## Words told apart -/

namespace Word

variable {w name v ls : Bytes} {a b : UInt8}

/-- How the words of each kind are spelt. -/
inductive Spelt : Bytes → Word → Prop where
  | endOfOptions : Spelt (encode "--") .endOfOptions
  | long {name : Bytes} : Spelt (encode "--" ++ name) (.long name none)
  | longValue {name v : Bytes} : Spelt (encode "--" ++ (name ++ equals :: v)) (.long name (some v))
  | letters {b : UInt8} {ls : Bytes} : Spelt (encode "-" ++ b :: ls) (.letters (b :: ls))
  | plain {w : Bytes} : IsValue w → Spelt w (.plain w)

theorem ofLong_of_not_mem (h : equals ∉ name) : ofLong name = .long name none := by
  rw [ofLong, dropWhile_ne_of_not_mem h]

theorem ofLong_append (h : equals ∉ name) :
    ofLong (name ++ equals :: v) = .long name (some v) := by
  rw [ofLong, dropWhile_ne_append h, takeWhile_ne_append h]

theorem spelt_ofLong (body : Bytes) : Spelt (encode "--" ++ body) (ofLong body) := by
  by_cases h : equals ∈ body
  · obtain ⟨name, v, rfl, hname⟩ := List.eq_append_cons_of_mem h
    rw [ofLong_append hname]
    exact .longValue
  · rw [ofLong_of_not_mem h]
    exact .long

theorem ofBytes_cons_cons (a b : UInt8) (rest : Bytes) :
    ofBytes (a :: b :: rest) =
      if a ≠ hyphen then plain (a :: b :: rest)
      else if b ≠ hyphen then letters (b :: rest)
      else if rest.isEmpty then endOfOptions
      else ofLong rest := rfl

theorem spelt_ofBytes (w : Bytes) : Spelt w (ofBytes w) := by
  match w with
  | [] => exact .plain (.inr (by simp))
  | [a] =>
      by_cases ha : a = hyphen
      · subst ha
        exact .plain (.inl rfl)
      · exact .plain (.inr fun h => ha (Option.some.inj h))
  | a :: b :: rest =>
      rw [ofBytes_cons_cons]
      by_cases ha : a = hyphen
      · subst ha
        rw [if_neg (not_not_intro rfl)]
        by_cases hb : b = hyphen
        · subst hb
          rw [if_neg (not_not_intro rfl)]
          cases rest with
          | nil => exact .endOfOptions
          | cons c rest => exact spelt_ofLong (c :: rest)
        · rw [if_pos hb]
          exact .letters
      · rw [if_pos ha]
        exact .plain (.inr fun h => ha (Option.some.inj h))

/-- A word that can be a value is read as one. -/
theorem ofBytes_of_isValue (h : IsValue w) : ofBytes w = .plain w := by
  rcases h with rfl | h
  · rfl
  · match w with
    | [] | [_] => rfl
    | a :: b :: rest =>
        have ha : a ≠ hyphen := fun ha => h (congrArg some ha)
        rw [ofBytes_cons_cons, if_pos ha]

theorem ofBytes_letters (hb : b ≠ hyphen) : ofBytes (encode "-" ++ b :: ls) = .letters (b :: ls) := by
  rw [show encode "-" ++ b :: ls = hyphen :: b :: ls from rfl, ofBytes_cons_cons,
    if_neg (not_not_intro rfl), if_pos hb]

/-- A cluster: switches, and perhaps the editor's letter behind them. -/
theorem ofBytes_cluster (sw : List Switch) {tail : Bytes}
    (h : (sw ≠ [] ∧ tail = []) ∨ ∃ v, tail = encode "e" ++ v) :
    ofBytes (encode "-" ++ (Switch.letters sw ++ tail)) = .letters (Switch.letters sw ++ tail) := by
  cases sw with
  | nil =>
      obtain ⟨v, rfl⟩ := h.resolve_left (fun ⟨hne, _⟩ => hne rfl)
      exact ofBytes_letters (by decide)
  | cons s sw => exact ofBytes_letters (by cases s <;> decide)

theorem ofBytes_switch (s : Switch) : ofBytes (encode s.word) = .long (encode s.opt.long) none := by
  cases s <;> rfl

end Word

/-! ## Options named -/

namespace Opt

theorem ofLong?_eq_some_iff {name : String} {o : Opt} : ofLong? name = some o ↔ o.long = name := by
  constructor
  · intro h
    simpa using List.find?_some h
  · rintro rfl
    cases o <;> rfl

/-- The long names as they are found in words. -/
theorem decode?_bind_ofLong?_eq_some_iff {name : Bytes} {o : Opt} :
    (decode? name).bind ofLong? = some o ↔ name = encode o.long := by
  rw [Option.bind_eq_some_iff]
  constructor
  · rintro ⟨s, hs, ho⟩
    rw [decode?_eq_some_iff.mp hs, ofLong?_eq_some_iff.mp ho]
  · rintro rfl
    exact ⟨o.long, decode?_encode _, ofLong?_eq_some_iff.mpr rfl⟩

theorem ofLetter?_switch (s : Switch) :
    ofLetter? (Char.ofUInt8 s.letter.toUInt8) = some s.opt := by
  cases s <;> rfl

/-- What a letter can name. -/
theorem ofLetter?_cases {b : UInt8} {o : Opt} (h : ofLetter? (Char.ofUInt8 b) = some o) :
    (∃ s : Switch, o = s.opt ∧ b = s.letter.toUInt8) ∨ (o = .editor ∧ b = 'e'.toUInt8) ∨
      o = .help ∨ o = .version := by
  have hletter : o.letter? = some (Char.ofUInt8 b) := by simpa using List.find?_some h
  have hb : ∀ c, some c = some (Char.ofUInt8 b) → b = c.toUInt8 := by
    intro c hc
    rw [Option.some.inj hc, toUInt8_ofUInt8]
  cases o with
  | print => exact .inl ⟨.print, rfl, hb _ hletter⟩
  | dryRun => exact .inl ⟨.dryRun, rfl, hb _ hletter⟩
  | quiet => exact .inl ⟨.quiet, rfl, hb _ hletter⟩
  | editor => exact .inr (.inl ⟨rfl, hb _ hletter⟩)
  | help => exact .inr (.inr (.inl rfl))
  | version => exact .inr (.inr (.inr rfl))
  | completions => cases hletter

end Opt

end LastMatch
