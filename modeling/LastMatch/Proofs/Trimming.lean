import LastMatch.Proofs.Parsing

/-!
# Blanks around a command

Blanks are removed from a command before it is split. Spaces, tabs and newlines at its ends separate
nothing, so the splitter would pass over them: at the start it stays between words, and at the end
each place leads to one that ends the line in the same way (`Splitter.finish_step_separator`). There
is one exception, a backslash that stands last. It escapes the first blank behind it, and has
nothing to escape where that was removed.

* `Words.EndsEscaping` tells such bytes by the grammar.
* `Editor.trimming_matters_behind_backslash` compares the outcome with what the line as it stands
  comes to.
-/

namespace LastMatch

open Utf8

namespace Words

open Splitter

variable {c : List Bytes} {u t lead trail : Bytes}

/-! ## A backslash at the end -/

/-- Bytes that end outside quotation marks, comments and escapes: gaps, and whole words. -/
inductive Outside : Bytes → Prop where
  | gap {g : Bytes} : Gap g → Outside g
  | word {g t v : Bytes} : Gap g → Word t v → Outside (g ++ t)
  | next {g t v r : Bytes} {b : UInt8} : Gap g → Word t v → IsSeparator b → Outside r →
      Outside (g ++ (t ++ b :: r))

/-- The bytes end in a backslash that starts an escape outside quotation marks and comments. -/
def EndsEscaping (t : Bytes) : Prop := ∃ u, Outside u ∧ t = u ++ ['\\'.toUInt8]

theorem Outside.place_run (h : Outside u) (c : List Bytes) :
    (Splitter.run Symbol.ofByte ⟨.gap, c⟩ u).place = .gap ∨
      ∃ w, (Splitter.run Symbol.ofByte ⟨.gap, c⟩ u).place = .word w := by
  induction h generalizing c with
  | gap hg => exact .inl (by rw [hg.run])
  | word hg hw => exact .inr ⟨_, by rw [run_append, hg.run, hw.run]⟩
  | next hg hw hs _ ih =>
      rw [run_append, hg.run, run_append, hw.run, run_cons,
        step_word_separator ((isSeparator_iff _).mp hs)]
      exact ih _

/-- A line that may end, and does not end in a comment, ends outside. -/
theorem Derives.outside {ws : List Bytes} (h : Derives u ws) (c : List Bytes)
    (hp : (Splitter.run Symbol.ofByte ⟨.gap, c⟩ u).place ≠ .comment) : Outside u := by
  induction h generalizing c with
  | gap hg => exact .gap hg
  | comment hg ht =>
      refine absurd ?_ hp
      rw [run_append, hg.run, run_cons, step_gap_hash rfl, run_comment (ofByte_ne_newline ht)]
  | last hg hw => exact .word hg hw
  | next hg hw hs _ ih =>
      rw [run_append, hg.run, run_append, hw.run, run_cons,
        step_word_separator ((isSeparator_iff _).mp hs)] at hp
      exact .next hg hw hs (ih _ hp)

theorem outside_of_place (h : (Splitter.run Symbol.ofByte start u).place = .gap ∨
    ∃ w, (Splitter.run Symbol.ofByte start u).place = .word w) : Outside u := by
  have hends : ∃ ws, split u = some ws := by
    rw [split, splitBy, finish]
    rcases h with h | ⟨w, h⟩ <;> rw [h] <;> exact ⟨_, rfl⟩
  obtain ⟨ws, hws⟩ := hends
  refine (derives_iff_split.mpr hws).outside [] ?_
  show (Splitter.run Symbol.ofByte start u).place ≠ .comment
  rcases h with h | ⟨w, h⟩ <;> simp [h]

theorem place_step_backslash {s : Splitter UInt8}
    (h : s.place = .gap ∨ ∃ w, s.place = .word w) :
    ∃ w, (step Symbol.ofByte s '\\'.toUInt8).place = .escaped w := by
  obtain ⟨p, c⟩ := s
  rcases h with rfl | ⟨w, rfl⟩
  · exact ⟨[], rfl⟩
  · exact ⟨w, rfl⟩

/-- The splitter is left behind a backslash exactly by such bytes. -/
theorem endsEscaping_iff_place :
    EndsEscaping t ↔ ∃ w, (Splitter.run Symbol.ofByte start t).place = .escaped w := by
  constructor
  · rintro ⟨u, hu, rfl⟩
    rw [run_append, run_cons, run_nil]
    exact place_step_backslash (hu.place_run [])
  · rintro ⟨w, hw⟩
    rcases List.eq_nil_or_concat t with rfl | ⟨u, b, rfl⟩
    · cases hw
    · rw [List.concat_eq_append, run_append, run_cons, run_nil] at hw
      obtain ⟨hb, hplace⟩ := of_step_escaped hw
      rw [Symbol.ofByte_eq_backslash_iff] at hb
      subst hb
      exact ⟨u, outside_of_place (hplace.imp_right fun h => ⟨w, h⟩), List.concat_eq_append⟩

/-! ## Separators at the ends -/

namespace Splitter

variable {s : Splitter UInt8} {b : UInt8}

/-- A separator can only end what may end without it: the line ends in the same way, or is as open
as before. -/
theorem finish_step_separator (hb : IsSeparator b) (hs : ∀ w, s.place ≠ .escaped w) :
    (s.step Symbol.ofByte b).finish = s.finish ∧
      ∀ w, (s.step Symbol.ofByte b).place ≠ .escaped w := by
  rw [isSeparator_iff] at hb
  obtain ⟨p, c⟩ := s
  cases p with
  | escaped w => exact absurd rfl (hs w)
  | gap =>
      rw [step_gap_separator hb]
      exact ⟨rfl, hs⟩
  | comment =>
      by_cases hn : Symbol.ofByte b = .newline
      · rw [step_comment_newline hn]
        exact ⟨rfl, by simp⟩
      · rw [step_comment hn]
        exact ⟨rfl, hs⟩
  | word w =>
      rw [step_word_separator hb]
      exact ⟨rfl, by simp⟩
  | single w =>
      rw [step_single (by rcases hb with hb | hb <;> simp [hb])]
      exact ⟨rfl, by simp⟩
  | double w =>
      rw [step_double (by rcases hb with hb | hb <;> simp [hb])
        (by rcases hb with hb | hb <;> simp [hb])]
      exact ⟨rfl, by simp⟩
  | doubleEscaped w a =>
      by_cases hn : Symbol.ofByte b = .newline
      · rw [step_doubleEscaped_newline hn]
        exact ⟨rfl, by simp⟩
      · rw [step_doubleEscaped hn (by simp [hb.resolve_right hn, Symbol.isGuarded])]
        exact ⟨rfl, by simp⟩

theorem finish_run_separators (htrail : ∀ b ∈ trail, IsSeparator b)
    (hs : ∀ w, s.place ≠ .escaped w) : (s.run Symbol.ofByte trail).finish = s.finish := by
  induction trail generalizing s with
  | nil => rfl
  | cons b trail ih =>
      obtain ⟨hfinish, hplace⟩ := finish_step_separator (htrail b List.mem_cons_self) hs
      rw [run_cons, ih (fun x hx => htrail x (List.mem_cons_of_mem b hx)) hplace, hfinish]

/-- Behind a backslash the first separator belongs to the word, or joins two lines, and the others
separate nothing. -/
theorem exists_finish_run_escaped {w : Bytes} (hs : s.place = .escaped w) (hne : trail ≠ [])
    (htrail : ∀ b ∈ trail, IsSeparator b) : ∃ ws, (s.run Symbol.ofByte trail).finish = some ws := by
  obtain ⟨p, c⟩ := s
  cases hs
  cases trail with
  | nil => exact absurd rfl hne
  | cons b trail =>
      have hrest : ∀ x ∈ trail, IsSeparator x := fun x hx => htrail x (List.mem_cons_of_mem b hx)
      rw [run_cons]
      by_cases hn : Symbol.ofByte b = .newline
      · rw [step_escaped_newline hn, finish_run_separators hrest (by simp)]
        exact ⟨_, rfl⟩
      · rw [step_escaped hn, finish_run_separators hrest (by simp)]
        exact ⟨_, rfl⟩

/-- Separators before a line are a gap. -/
theorem run_start_separators (hlead : ∀ b ∈ lead, IsSeparator b) :
    run Symbol.ofByte start lead = start := by
  induction lead with
  | nil => rfl
  | cons b lead ih =>
      have hb : Symbol.ofByte b = .blank ∨ Symbol.ofByte b = .newline :=
        (isSeparator_iff b).mp (hlead b List.mem_cons_self)
      rw [run_cons, start, step_gap_separator hb]
      exact ih fun x hx => hlead x (List.mem_cons_of_mem b hx)

end Splitter

theorem split_around (hlead : ∀ b ∈ lead, IsSeparator b) :
    split (lead ++ (t ++ trail)) =
      ((Splitter.run Symbol.ofByte start t).run Symbol.ofByte trail).finish := by
  rw [split, splitBy, run_append, run_start_separators hlead, run_append]

theorem split_eq_of_not_escaping (hlead : ∀ b ∈ lead, IsSeparator b)
    (htrail : ∀ b ∈ trail, IsSeparator b) (h : trail = [] ∨ ¬ EndsEscaping t) :
    split (lead ++ (t ++ trail)) = split t := by
  rw [split_around hlead]
  rcases h with rfl | h
  · rfl
  · rw [endsEscaping_iff_place, not_exists] at h
    exact finish_run_separators htrail h

theorem split_of_escaping (hlead : ∀ b ∈ lead, IsSeparator b)
    (htrail : ∀ b ∈ trail, IsSeparator b) (hne : trail ≠ []) (h : EndsEscaping t) :
    split t = none ∧ ∃ ws, split (lead ++ (t ++ trail)) = some ws := by
  obtain ⟨w, hw⟩ := endsEscaping_iff_place.mp h
  rw [split_around hlead]
  refine ⟨?_, exists_finish_run_escaped hw hne htrail⟩
  rw [split, splitBy, finish, hw]

/-- The separators of a text, in bytes. -/
theorem isSeparator_of_mem_encodeChars {cs : List Char} (h : ∀ a ∈ cs, a ∈ [' ', '\t', '\n']) :
    ∀ b ∈ encodeChars cs, IsSeparator b := by
  intro b hb
  obtain ⟨a, ha, hab⟩ := List.mem_flatMap.mp hb
  have hsep := h a ha
  simp only [List.mem_cons, List.not_mem_nil, or_false] at hsep
  rcases hsep with rfl | rfl | rfl
  · exact .inl (List.mem_singleton.mp hab)
  · exact .inr (.inl (List.mem_singleton.mp hab))
  · exact .inr (.inr (List.mem_singleton.mp hab))

end Words

/-! ## Commands -/

namespace Editor

open Text Words

variable {command t : String} {lead trail : List Char}

/-- There is white space behind the command, and before that a backslash that starts an escape. -/
def LosesEscape (t : String) (trail : List Char) : Prop :=
  trail ≠ [] ∧ EndsEscaping (encode t)

section

variable (h : Trimmed command lead t trail) (hseps : ∀ c ∈ lead ++ trail, c ∈ [' ', '\t', '\n'])

include h hseps

/-- The bytes of the command with the separators around it. -/
theorem encode_around : encode command = encodeChars lead ++ (encode t ++ encodeChars trail) ∧
    (∀ b ∈ encodeChars lead, IsSeparator b) ∧ ∀ b ∈ encodeChars trail, IsSeparator b := by
  refine ⟨?_, ?_, ?_⟩
  · rw [encode, h.toList_eq, encodeChars_append, encodeChars_append]
    rfl
  · exact isSeparator_of_mem_encodeChars fun c hc => hseps c (List.mem_append_left trail hc)
  · exact isSeparator_of_mem_encodeChars fun c hc => hseps c (List.mem_append_right lead hc)

theorem split_of_losesEscape (hlost : LosesEscape t trail) :
    split (encode t) = none ∧ ∃ ws, split (encode command) = some ws := by
  obtain ⟨hbytes, hlead, htrail⟩ := encode_around h hseps
  obtain ⟨hne, hescaping⟩ := hlost
  rw [hbytes]
  exact split_of_escaping hlead htrail (mt (encodeChars_eq_nil_iff trail).mp hne) hescaping

theorem split_of_not_losesEscape (hlost : ¬ LosesEscape t trail) :
    split (encode command) = split (encode t) := by
  obtain ⟨hbytes, hlead, htrail⟩ := encode_around h hseps
  rw [hbytes]
  refine split_eq_of_not_escaping hlead htrail ?_
  rw [encodeChars_eq_nil_iff]
  exact Decidable.or_iff_not_imp_left.mpr fun hne hescaping => hlost ⟨hne, hescaping⟩

end

/-- What settles a line settles another one from which the same words are derived. -/
theorem Settles.congr {text : String} {line line' : Bytes} {r : Except LaunchError Editor}
    (hline : split line' = split line) (h : Settles text line r) : Settles text line' r := by
  have hd : ∀ {ws}, Derives line ws → Derives line' ws := by
    intro ws hd
    rw [derives_iff_split] at hd ⊢
    rw [hline, hd]
  cases h with
  | editor hp hw => exact .editor hp (hd hw)
  | noWords hw => exact .noWords (hd hw)
  | emptyProgram hw => exact .emptyProgram (hd hw)
  | underivable hnone =>
      refine .underivable fun ws hw => hnone ws ?_
      rw [derives_iff_split] at hw ⊢
      rw [← hline, hw]

/-- **Trimming matters only behind a backslash.** For a command with spaces, tabs and newlines around
it, the outcome is settled by the line as it stands, with these around it, but for one kind: there is
white space behind the command, and before that a backslash that starts an escape. That is wrong
syntax, although words are derived from the line as it stands. -/
theorem trimming_matters_behind_backslash (command t : String) (lead trail : List Char)
    (h : Trimmed command lead t trail) (hseps : ∀ c ∈ lead ++ trail, c ∈ [' ', '\t', '\n']) :
    (Settles t (encode command) (parse (some command)) ↔ ¬ LosesEscape t trail) ∧
    (LosesEscape t trail → parse (some command) = .error (.invalidSyntax t) ∧
      ∃ vs : List String, Derives (encode command) (vs.map encode)) := by
  by_cases hlost : LosesEscape t trail
  · obtain ⟨hnone, ws, hws⟩ := split_of_losesEscape h hseps hlost
    obtain ⟨vs, rfl⟩ := exists_of_split hws
    have hd := derives_iff_split.mpr hws
    have hparse : parse (some command) = .error (.invalidSyntax t) := by
      rw [parse_some, h.trim_eq, ofTrimmed_of_split_none hnone]
    refine ⟨iff_of_false ?_ (not_not_intro hlost), fun _ => ⟨hparse, vs, hd⟩⟩
    intro hsettles
    exact hsettles.eq_invalidSyntax_iff.mp hparse _ hd
  · have hsettles := (settles_parse h).congr (split_of_not_losesEscape h hseps hlost)
    exact ⟨iff_of_true hsettles hlost, fun hl => absurd hl hlost⟩

/-- A command that loses its escape, and one whose last backslash is escaped itself. -/
theorem trimming_matters_behind_backslash_space :
    ¬ Settles "vi a\\" (encode "\tvi a\\ ") (parse (some "\tvi a\\ ")) ∧
      parse (some "\tvi a\\ ") = .error (.invalidSyntax "vi a\\") ∧
      Settles "vi 'a b'\\\\" (encode "\n vi 'a b'\\\\\t")
        (parse (some "\n vi 'a b'\\\\\t")) ∧
      parse (some "\n vi 'a b'\\\\\t") = .ok ⟨"vi", ["a b\\"], by decide⟩ := by
  have hlost : LosesEscape "vi a\\" [' '] :=
    ⟨by decide, endsEscaping_iff_place.mpr ⟨['a'.toUInt8], by decide⟩⟩
  have hkept : ¬ LosesEscape "vi 'a b'\\\\" ['\t'] := by
    rintro ⟨-, hescaping⟩
    obtain ⟨w, hw⟩ := endsEscaping_iff_place.mp hescaping
    cases hw
  obtain ⟨hiff, herror⟩ := trimming_matters_behind_backslash "\tvi a\\ " "vi a\\" ['\t'] [' ']
    (by decide) (by simp)
  obtain ⟨hiff', -⟩ := trimming_matters_behind_backslash "\n vi 'a b'\\\\\t" "vi 'a b'\\\\"
    ['\n', ' '] ['\t'] (by decide) (by simp)
  have hsettles := hiff'.mpr hkept
  obtain ⟨_, hparse⟩ : ∃ h, parse (some "\n vi 'a b'\\\\\t") = .ok ⟨"vi", ["a b\\"], h⟩ :=
    hsettles.eq_ok_iff.mpr ⟨by decide, derives_iff_split.mpr rfl⟩
  exact ⟨fun hs => hiff.mp hs hlost, (herror hlost).1, hsettles, hparse⟩

end Editor

end LastMatch
