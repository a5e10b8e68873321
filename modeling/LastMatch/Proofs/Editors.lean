import LastMatch.Editor
import LastMatch.Proofs.Blanks
import LastMatch.Proofs.Characters

/-!
# Editors from their words

The words of a command are texts, so decoding them replaces nothing, and an editor is made from
exactly the words that the splitter finds (`Editor.ofTrimmed_of_split`).
-/

namespace LastMatch

open Utf8

namespace Editor

/-! ## Words without NULs -/

/-- None of the editor's words has a NUL. -/
def NoNul (e : Editor) : Prop := ∀ w ∈ e.program :: e.args, 0 ∉ encode w

instance (e : Editor) : Decidable e.NoNul := inferInstanceAs (Decidable (∀ _ ∈ _, _))

theorem NoNul.argv {e : Editor} (h : e.NoNul) {path : Bytes} (hp : 0 ∉ path) :
    ∀ w ∈ e.argv path, 0 ∉ w := by
  intro w hw
  simp only [Editor.argv, List.mem_cons, List.mem_append, List.mem_map, List.not_mem_nil,
    or_false] at hw
  rcases hw with (rfl | ⟨v, hv, rfl⟩) | rfl
  · exact h _ List.mem_cons_self
  · exact h v (List.mem_cons_of_mem _ hv)
  · exact hp

/-! ## Commands -/

theorem parse_some (command : String) :
    parse (some command) = ofTrimmed (Text.trim command) := rfl

/-- What a trimmed command is split into, if it is split at all, are texts. -/
theorem exists_of_split {command : String} {ws : List Bytes}
    (h : Words.split (encode command) = some ws) : ∃ vs : List String, ws = vs.map encode :=
  exists_map_encode (Words.isText_of_split (isText_encode command) h)

theorem ofTrimmed_of_split {command : String} {vs : List String}
    (h : Words.split (encode command) = some (vs.map encode)) :
    ofTrimmed command = ofWords vs := by
  have hdecode : (vs.map encode).map decodeLossy = vs := by
    rw [List.map_map, show decodeLossy ∘ encode = id from funext decodeLossy_encode, List.map_id]
  rw [ofTrimmed, h]
  show ofWords ((vs.map encode).map decodeLossy) = ofWords vs
  rw [hdecode]

theorem ofTrimmed_of_split_none {command : String} (h : Words.split (encode command) = none) :
    ofTrimmed command = .error (.invalidSyntax command) := by
  rw [ofTrimmed, h]

theorem ofWords_ok {program : String} (h : program ≠ "") (args : List String) :
    ofWords (program :: args) = .ok ⟨program, args, h⟩ := by
  rw [ofWords, dif_neg h]

theorem ofWords_eq_ok_iff {vs : List String} {program : String} {args : List String} :
    (∃ h, ofWords vs = .ok ⟨program, args, h⟩) ↔ program ≠ "" ∧ vs = program :: args := by
  constructor
  · rintro ⟨h, hok⟩
    refine ⟨h, ?_⟩
    cases vs with
    | nil => cases hok
    | cons v vs =>
        rw [ofWords] at hok
        split at hok
        · cases hok
        · cases hok
          rfl
  · rintro ⟨h, rfl⟩
    exact ⟨h, ofWords_ok h args⟩

theorem ofWords_eq_notConfigured_iff {vs : List String} :
    ofWords vs = .error .notConfigured ↔ vs = [] ∨ ∃ rest, vs = "" :: rest := by
  cases vs with
  | nil => simp [ofWords]
  | cons v vs =>
      by_cases hv : v = ""
      · simp [ofWords, hv]
      · simp [ofWords, hv]

theorem ofWords_ne_invalidSyntax (vs : List String) (command : String) :
    ofWords vs ≠ .error (.invalidSyntax command) := by
  cases vs with
  | nil => simp [ofWords]
  | cons v vs =>
      rw [ofWords]
      split <;> simp

end Editor

end LastMatch
