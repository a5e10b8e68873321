import LastMatch.Proofs.Editors
import LastMatch.Proofs.Grammar

/-!
# Commands and the grammar

An editor is resolved from a command exactly if the grammar derives a first word that is not empty
from the trimmed command. No words, or an empty first one, are no configuration, and a command from
which nothing is derived has wrong syntax. `Settles` says so of any line, and `settles_parse` that
this is what becomes of a command.
-/

namespace LastMatch.Editor

open Utf8 Words

theorem map_encode_inj {vs us : List String} : vs.map encode = us.map encode ↔ vs = us :=
  List.map_inj_right (fun _ _ h => encode_injective h)

/-- What a command comes to, by the words that the grammar derives from a line: an editor, if the
first of them is not empty. A complaint about the line shows the text. -/
inductive Settles (text : String) (line : Bytes) : Except LaunchError Editor → Prop where
  | editor {program : String} {args : List String} (h : program ≠ "") :
      Derives line ((program :: args).map encode) → Settles text line (.ok ⟨program, args, h⟩)
  | noWords : Derives line [] → Settles text line (.error .notConfigured)
  | emptyProgram {ws : List Bytes} : Derives line ([] :: ws) →
      Settles text line (.error .notConfigured)
  | underivable : (∀ ws, ¬ Derives line ws) → Settles text line (.error (.invalidSyntax text))

variable {text command t program : String} {args : List String} {line : Bytes}
  {r : Except LaunchError Editor} {lead trail : List Char}

namespace Settles

theorem eq_ok_iff (h : Settles text line r) :
    (∃ hp, r = .ok ⟨program, args, hp⟩) ↔
      program ≠ "" ∧ Derives line ((program :: args).map encode) := by
  constructor
  · rintro ⟨hp, rfl⟩
    cases h with
    | editor _ hd => exact ⟨hp, hd⟩
  · rintro ⟨hp, hd⟩
    cases h with
    | editor _ hd' =>
        cases map_encode_inj.mp (hd.unique hd')
        exact ⟨hp, rfl⟩
    | noWords hd' => cases hd.unique hd'
    | emptyProgram hd' =>
        have hempty : encode program = [] := (List.cons.inj (hd.unique hd')).1
        exact absurd ((encode_eq_nil_iff program).mp hempty) hp
    | underivable hnone => exact absurd hd (hnone _)

theorem eq_notConfigured_iff (h : Settles text line r) :
    r = .error .notConfigured ↔ Derives line [] ∨ ∃ ws, Derives line ([] :: ws) := by
  constructor
  · rintro rfl
    cases h with
    | noWords hd => exact .inl hd
    | emptyProgram hd => exact .inr ⟨_, hd⟩
  · intro hd
    cases h with
    | @editor program _ hp hd' =>
        rcases hd with hd | ⟨ws, hd⟩
        · cases hd.unique hd'
        · have hempty := (List.cons.inj (hd.unique hd')).1.symm
          exact absurd ((encode_eq_nil_iff program).mp hempty) hp
    | noWords | emptyProgram => rfl
    | underivable hnone =>
        rcases hd with hd | ⟨ws, hd⟩
        · exact absurd hd (hnone _)
        · exact absurd hd (hnone _)

theorem eq_invalidSyntax_iff (h : Settles text line r) :
    r = .error (.invalidSyntax text) ↔ ∀ ws, ¬ Derives line ws := by
  constructor
  · rintro rfl
    cases h with
    | underivable hnone => exact hnone
  · intro hnone
    cases h with
    | editor _ hd | noWords hd | emptyProgram hd => exact absurd hd (hnone _)
    | underivable => rfl

end Settles

/-- A command is settled by the line that is left of it without the white space at its ends. -/
theorem settles_parse (h : Text.Trimmed command lead t trail) :
    Settles t (encode t) (parse (some command)) := by
  rw [parse_some, h.trim_eq]
  cases hsplit : split (encode t) with
  | none =>
      rw [ofTrimmed_of_split_none hsplit]
      refine .underivable fun ws hd => ?_
      cases (derives_iff_split.mp hd).symm.trans hsplit
  | some ws =>
      obtain ⟨vs, rfl⟩ := exists_of_split hsplit
      have hd := derives_iff_split.mpr hsplit
      rw [ofTrimmed_of_split hsplit]
      cases vs with
      | nil => exact .noWords hd
      | cons program args =>
          by_cases hp : program = ""
          · subst hp
            exact .emptyProgram hd
          · rw [ofWords_ok hp]
            exact .editor hp hd

/-- **A command is parsed as the grammar says.** Without the white space at its ends, which is
determined, it derives at most one list of words, and the outcome is an editor, no configuration or
wrong syntax according to that. -/
theorem parse_iff_derives (command : String) :
    ∃ (lead : List Char) (t : String) (trail : List Char),
      Text.Trimmed command lead t trail ∧
      (∀ lead' t' trail', Text.Trimmed command lead' t' trail' → t' = t) ∧
      (∀ ws ws', Derives (encode t) ws → Derives (encode t) ws' → ws = ws') ∧
      (∀ program args, (∃ h, parse (some command) = .ok ⟨program, args, h⟩) ↔
        program ≠ "" ∧ Derives (encode t) ((program :: args).map encode)) ∧
      (parse (some command) = .error .notConfigured ↔
        Derives (encode t) [] ∨ ∃ ws, Derives (encode t) ([] :: ws)) ∧
      (parse (some command) = .error (.invalidSyntax t) ↔ ∀ ws, ¬ Derives (encode t) ws) := by
  obtain ⟨lead, trail, h⟩ := Text.trimmed_trim command
  have hsettles := settles_parse h
  exact ⟨lead, _, trail, h, fun _ _ _ h' => h'.trim_eq.symm, fun _ _ hd hd' => hd.unique hd',
    fun _ _ => hsettles.eq_ok_iff, hsettles.eq_notConfigured_iff, hsettles.eq_invalidSyntax_iff⟩

/-- White space of three kinds around a command with words of three kinds; a command that has nothing
else, and one that is not finished. -/
theorem parse_iff_derives_white_space :
    Derives (encode "vi -c \"a b\" ''") (["vi", "-c", "a b", ""].map encode) ∧
      parse (some "\u3000vi -c \"a b\" ''\n\u2003") = .ok ⟨"vi", ["-c", "a b", ""], by decide⟩ ∧
      parse (some "\u0085 ") = .error .notConfigured ∧
      parse (some " vi 'a\n") = .error (.invalidSyntax "vi 'a") := by
  have hd : Derives (encode "vi -c \"a b\" ''") (["vi", "-c", "a b", ""].map encode) :=
    derives_iff_split.mpr rfl
  have hblank : Derives (encode "") [] := .gap .nil
  have hopen : ∀ ws, ¬ Derives (encode "vi 'a") ws := by
    intro ws hd
    cases derives_iff_split.mp hd
  obtain ⟨_, t, _, -, hunique, -, hok, -⟩ := parse_iff_derives "\u3000vi -c \"a b\" ''\n\u2003"
  obtain rfl := hunique ['\u3000'] "vi -c \"a b\" ''" ['\n', '\u2003'] (by decide)
  obtain ⟨_, t, _, -, hunique, -, -, hnone, -⟩ := parse_iff_derives "\u0085 "
  obtain rfl := hunique ['\u0085', ' '] "" [] (by decide)
  obtain ⟨_, t, _, -, hunique, -, -, -, hinvalid⟩ := parse_iff_derives " vi 'a\n"
  obtain rfl := hunique [' '] "vi 'a" ['\n'] (by decide)
  obtain ⟨_, hparse⟩ := (hok "vi" ["-c", "a b", ""]).mpr ⟨by decide, hd⟩
  exact ⟨hd, hparse, hnone.mpr (.inl hblank), hinvalid.mpr hopen⟩

end LastMatch.Editor
