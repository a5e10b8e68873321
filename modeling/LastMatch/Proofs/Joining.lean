import LastMatch.Proofs.Parsing

/-!
# Commands behind one another

A separator behind a command that may end there completes its last word and leaves the splitter
between words, with nothing but the words themselves to show for the command. What is read next is
then split as if it stood alone. So joined commands have their words joined, whichever separator is
between them, unless the first ends in a comment: only a newline ends that.

* `Words.EndsInComment` tells the bytes that end in a comment by the grammar.
* `Words.splitBy_joined` is the law for letters of any type.
* `Editor.joined_commands` is the law for commands.
-/

namespace LastMatch

open Utf8

namespace Words

open Splitter

/-! ## Words that are complete -/

namespace Splitter

variable {α : Type} {kind : α → Symbol}

/-- A step takes no part in the words that are complete. -/
theorem step_complete (p : Place α) (c : List (List α)) (a : α) :
    step kind ⟨p, c⟩ a =
      ⟨(step kind ⟨p, []⟩ a).place, (step kind ⟨p, []⟩ a).complete ++ c⟩ := by
  cases p <;> cases hk : kind a <;> simp [step, hk]

theorem run_complete (p : Place α) (c : List (List α)) (l : List α) :
    run kind ⟨p, c⟩ l = ⟨(run kind ⟨p, []⟩ l).place, (run kind ⟨p, []⟩ l).complete ++ c⟩ := by
  induction l generalizing p c with
  | nil => rfl
  | cons a l ih =>
      rw [run_cons, run_cons, step_complete p c a, ih]
      rw [ih (step kind ⟨p, []⟩ a).place (step kind ⟨p, []⟩ a).complete, List.append_assoc]

/-- Between words a line is split as if it stood alone, behind the words that are complete. -/
theorem finish_run_gap (c : List (List α)) (l : List α) :
    (run kind ⟨.gap, c⟩ l).finish = (splitBy kind l).map (c.reverse ++ ·) := by
  rw [run_complete, splitBy, start]
  obtain ⟨p, d⟩ := run kind ⟨.gap, []⟩ l
  cases p <;> simp [finish]

/-- Where a line may end, a separator leads between words, and all words are complete. A comment
takes a newline for that. -/
theorem step_of_finish {s : Splitter α} {a : α} {ws : List (List α)} (hs : s.finish = some ws)
    (ha : kind a = .blank ∨ kind a = .newline) (hc : s.place = .comment → kind a = .newline) :
    step kind s a = ⟨.gap, ws.reverse⟩ := by
  obtain ⟨p, c⟩ := s
  cases p with
  | gap =>
      cases hs
      rw [step_gap_separator ha, List.reverse_reverse]
  | comment =>
      cases hs
      rw [step_comment_newline (hc rfl), List.reverse_reverse]
  | word w =>
      cases hs
      rw [step_word_separator ha, List.reverse_reverse]
  | escaped w | single w | double w | doubleEscaped w b => cases hs

end Splitter

/-- A line that a separator joins to a line with words has these words before its own. -/
theorem splitBy_joined {α : Type} {kind : α → Symbol} {l m : List α} {a : α} {ws : List (List α)}
    (hl : splitBy kind l = some ws) (ha : kind a = .blank ∨ kind a = .newline)
    (hc : (Splitter.start.run kind l).place = .comment → kind a = .newline) :
    splitBy kind (l ++ a :: m) = (splitBy kind m).map (ws ++ ·) := by
  have hstep := step_of_finish hl ha hc
  rw [splitBy, run_append, run_cons, hstep, finish_run_gap, List.reverse_reverse]

/-! ## Comments at the end -/

/-- Bytes that end where a word could start. -/
inductive BeforeWord : Bytes → Prop where
  | gap {g : Bytes} : Gap g → BeforeWord g
  | next {g t v r : Bytes} {b : UInt8} : Gap g → Word t v → IsSeparator b → BeforeWord r →
      BeforeWord (g ++ (t ++ b :: r))

/-- The bytes end in a comment: a `#` where a word could start, and no newline behind it. -/
def EndsInComment (t : Bytes) : Prop :=
  ∃ u v, BeforeWord u ∧ '\n'.toUInt8 ∉ v ∧ t = u ++ '#'.toUInt8 :: v

variable {u t : Bytes}

theorem BeforeWord.exists_run (h : BeforeWord u) (c : List Bytes) :
    ∃ d, Splitter.run Symbol.ofByte ⟨.gap, c⟩ u = ⟨.gap, d⟩ := by
  induction h generalizing c with
  | gap hg => exact ⟨c, hg.run⟩
  | next hg hw hs _ ih =>
      rw [run_append, hg.run, run_append, hw.run, run_cons,
        step_word_separator ((isSeparator_iff _).mp hs)]
      exact ih _

/-- A line that has words, and leaves the splitter in a comment, ends in one. -/
theorem Derives.endsInComment {ws : List Bytes} (h : Derives t ws) (c : List Bytes)
    (hp : (Splitter.run Symbol.ofByte ⟨.gap, c⟩ t).place = .comment) : EndsInComment t := by
  induction h generalizing c with
  | gap hg =>
      rw [hg.run] at hp
      cases hp
  | @comment g v hg hv => exact ⟨g, v, .gap hg, hv, rfl⟩
  | last hg hw =>
      rw [run_append, hg.run, hw.run] at hp
      cases hp
  | @next g t v r b ws hg hw hs _ ih =>
      rw [run_append, hg.run, run_append, hw.run, run_cons,
        step_word_separator ((isSeparator_iff _).mp hs)] at hp
      obtain ⟨u, w, hu, hw', rfl⟩ := ih _ hp
      exact ⟨g ++ (t ++ b :: u), w, .next hg hw hs hu, hw', by simp⟩

/-- The splitter is left in a comment exactly by bytes that end in one. -/
theorem endsInComment_iff_place :
    EndsInComment t ↔ (Splitter.run Symbol.ofByte start t).place = .comment := by
  constructor
  · rintro ⟨u, v, hu, hv, rfl⟩
    obtain ⟨d, hd⟩ := hu.exists_run []
    rw [run_append, start, hd, run_cons, step_gap_hash rfl, run_comment (ofByte_ne_newline hv)]
  · intro hp
    have hsplit : split t = some (Splitter.run Symbol.ofByte start t).complete.reverse := by
      rw [split, splitBy, finish, hp]
    exact (derives_iff_split.mpr hsplit).endsInComment [] hp

end Words

/-! ## Commands -/

namespace Editor

open Text Words

variable {a b command : String} {e : Editor} {separator : Char}

/-- A command that gives an editor is split into the editor's words. -/
theorem split_of_parse (h : parse (some command) = .ok e) :
    split (encode (trim command)) = some ((e.program :: e.args).map encode) := by
  obtain ⟨lead, trail, htrimmed⟩ := trimmed_trim command
  have hsettles := settles_parse htrimmed
  rw [h] at hsettles
  cases hsettles with
  | editor _ hd => exact derives_iff_split.mp hd

/-- The separator parts a command from what is behind it. A newline always does, and a blank unless
it belongs to a comment. -/
def Parts (a : String) (separator : Char) : Prop :=
  separator = '\n' ∨ (separator = ' ' ∨ separator = '\t') ∧ ¬ EndsInComment (encode a)

theorem Parts.symbol (h : Parts a separator) :
    Symbol.ofByte separator.toUInt8 = .blank ∨ Symbol.ofByte separator.toUInt8 = .newline := by
  rcases h with rfl | ⟨rfl | rfl, -⟩
  · exact .inr rfl
  · exact .inl rfl
  · exact .inl rfl

theorem Parts.newline_of_comment (h : Parts a separator)
    (hp : (Splitter.start.run Symbol.ofByte (encode a)).place = .comment) :
    Symbol.ofByte separator.toUInt8 = .newline := by
  rcases h with rfl | ⟨-, hcomment⟩
  · rfl
  · exact absurd (endsInComment_iff_place.mpr hp) hcomment

theorem Parts.encode_eq (h : Parts a separator) (b : String) :
    encode (a ++ separator.toString ++ b) = encode a ++ separator.toUInt8 :: encode b := by
  have hseparator : encode separator.toString = [separator.toUInt8] := by
    rcases h with rfl | ⟨rfl | rfl, -⟩ <;> rfl
  rw [encode_append, encode_append, hseparator, List.append_assoc]
  rfl

/-- **Commands behind one another have their words behind one another.** For a command that gives an
editor and any other, both without blanks around them: if the second cannot be split, they cannot be
split together; otherwise all its words, of which there may be none, are arguments of the editor. -/
theorem joined_commands (a b : String) (separator : Char) (e : Editor) (ha : trim a = a)
    (hb : trim b = b) (hne : b ≠ "") (he : parse (some a) = .ok e) (hs : Parts a separator) :
    (split (encode b) = none → parse (some (a ++ separator.toString ++ b)) =
      .error (.invalidSyntax (a ++ separator.toString ++ b))) ∧
    ∀ ws, split (encode b) = some ws → ∃ vs : List String, ws = vs.map encode ∧
      parse (some (a ++ separator.toString ++ b)) = .ok { e with args := e.args ++ vs } := by
  have hane : a ≠ "" := by
    rintro rfl
    cases he
  have hwords := split_of_parse he
  rw [ha] at hwords
  have hjoined : split (encode (a ++ separator.toString ++ b)) =
      (split (encode b)).map ((e.program :: e.args).map encode ++ ·) := by
    rw [hs.encode_eq]
    exact splitBy_joined hwords hs.symbol hs.newline_of_comment
  rw [parse_some, trim_append ha hb hane hne]
  refine ⟨?_, ?_⟩
  · intro hnone
    rw [hnone] at hjoined
    exact ofTrimmed_of_split_none hjoined
  · intro ws hws
    obtain ⟨vs, rfl⟩ := exists_of_split hws
    refine ⟨vs, rfl, ?_⟩
    rw [hws, Option.map_some, ← List.map_append] at hjoined
    rw [ofTrimmed_of_split hjoined]
    exact ofWords_ok e.program_ne_empty (e.args ++ vs)

/-- A command that ends in a comment, and one whose first word is empty, on two lines; and a command
with a `#` in its last word, and one that has no words at all, on one line. -/
theorem joined_commands_comment :
    Parts "vi -n # \"all" '\n' ∧ ¬ Parts "vi -n # \"all" ' ' ∧
      parse (some "vi -n # \"all\n'' a\\ b") = .ok ⟨"vi", ["-n", "", "a b"], by decide⟩ ∧
      parse (some "vi -n # \"all\n'b") = .error (.invalidSyntax "vi -n # \"all\n'b") ∧
      Parts "vi a#" ' ' ∧ parse (some "vi a# # b") = .ok ⟨"vi", ["a#"], by decide⟩ := by
  have hs : Parts "vi -n # \"all" '\n' := .inl rfl
  have hs' : Parts "vi a#" ' ' := by
    refine .inr ⟨.inl rfl, ?_⟩
    rw [endsInComment_iff_place]
    decide
  have he : parse (some "vi -n # \"all") = .ok ⟨"vi", ["-n"], by decide⟩ := rfl
  have he' : parse (some "vi a#") = .ok ⟨"vi", ["a#"], by decide⟩ := rfl
  obtain ⟨-, hwords⟩ := joined_commands _ "'' a\\ b" '\n' _ rfl rfl (by decide) he hs
  obtain ⟨hopen, -⟩ := joined_commands _ "'b" '\n' _ rfl rfl (by decide) he hs
  obtain ⟨-, hnone⟩ := joined_commands _ "# b" ' ' _ rfl rfl (by decide) he' hs'
  refine ⟨hs, ?_, ?_, hopen rfl, hs', ?_⟩
  · rintro (hne | ⟨-, hcomment⟩)
    · cases hne
    · exact hcomment (endsInComment_iff_place.mpr (by decide))
  · obtain ⟨vs, hvs, hparse⟩ := hwords (["", "a b"].map encode) rfl
    obtain rfl := map_encode_inj.mp hvs
    exact hparse
  · obtain ⟨vs, hvs, hparse⟩ := hnone [] rfl
    obtain rfl := List.map_eq_nil_iff.mp hvs.symm
    exact hparse

end Editor

end LastMatch
