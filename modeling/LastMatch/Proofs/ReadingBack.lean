import LastMatch.Proofs.Cutting
import LastMatch.Proofs.Steps

/-!
# Reading back what was quoted

The splitter undoes the quoting of every word that has no NUL. A written chunk leads the splitter
from a place in a word to a place in the same word, with the bytes of the chunk gathered
(`Chunk.Fits.run_write`); so adjacent chunks of different styles join, and the space after a quoted
word is the first byte that ends it (`split_commandLine`).
-/

namespace LastMatch.Words

open Splitter

/-! ## Chunks -/

/-- Between double quotation marks a guarded byte is gathered as itself. -/
theorem run_guarded (w : Bytes) (c : List Bytes) (b : UInt8) :
    Splitter.run Symbol.ofByte ⟨.double w, c⟩ (Chunk.guarded b) = ⟨.double (b :: w), c⟩ := by
  unfold Chunk.guarded
  split
  · rename_i hb
    rcases hb with rfl | rfl <;> simp [step, Symbol.isGuarded]
  · rename_i hb
    rw [not_or, ← Symbol.ofByte_eq_quote_iff, ← Symbol.ofByte_eq_backslash_iff] at hb
    obtain ⟨hq, hs⟩ := hb
    rw [run_cons, run_nil]
    simp [step]

theorem run_flatMap_guarded (w : Bytes) (c : List Bytes) (bs : Bytes) :
    Splitter.run Symbol.ofByte ⟨.double w, c⟩ (bs.flatMap Chunk.guarded)
      = ⟨.double (bs.reverse ++ w), c⟩ := by
  induction bs generalizing w with
  | nil => rfl
  | cons b bs ih =>
      rw [List.flatMap_cons, run_append, run_guarded, ih]
      simp

/-- A written chunk adds its bytes to the word in which it stands. -/
theorem Chunk.Fits.run_write {k : Chunk} (h : k.Fits) (w : Bytes) (c : List Bytes) :
    Splitter.run Symbol.ofByte ⟨.word w, c⟩ k.write = ⟨.word (k.bytes.reverse ++ w), c⟩ := by
  cases hs : k.style with
  | unquoted =>
      rw [Chunk.write_unquoted hs]
      apply run_word
      intro b hb
      exact Style.ofByte_of_holds_unquoted (h.holds_unquoted hs b hb)
  | single =>
      have hbody : ∀ b ∈ k.bytes, Symbol.ofByte b ≠ .apostrophe := by
        intro b hb
        rw [ne_eq, Symbol.ofByte_eq_apostrophe_iff]
        exact (h.ne_of_single hs b hb).1
      rw [Chunk.write_single hs, run_cons,
        show step Symbol.ofByte ⟨.word w, c⟩ '\''.toUInt8 = ⟨.single w, c⟩ from rfl,
        run_append, run_single hbody]
      rfl
  | double =>
      rw [Chunk.write_double hs, run_cons,
        show step Symbol.ofByte ⟨.word w, c⟩ '"'.toUInt8 = ⟨.double w, c⟩ from rfl,
        run_append, run_flatMap_guarded]
      rfl

theorem run_flatMap_write {ks : List Chunk} (h : ∀ k ∈ ks, k.Fits) (w : Bytes)
    (c : List Bytes) :
    Splitter.run Symbol.ofByte ⟨.word w, c⟩ (ks.flatMap Chunk.write)
      = ⟨.word ((ks.flatMap Chunk.bytes).reverse ++ w), c⟩ := by
  induction ks generalizing w with
  | nil => rfl
  | cons k ks ih =>
      have hk : k.Fits := h k List.mem_cons_self
      rw [List.flatMap_cons, run_append, hk.run_write,
        ih (fun x hx => h x (List.mem_cons_of_mem k hx))]
      simp

/-! ## Words -/

/-- Neither a separator nor the start of a comment opens a quoted word. -/
theorem IsEdge.step_gap {b : UInt8} (h : IsEdge b) (c : List Bytes) :
    step Symbol.ofByte ⟨.gap, c⟩ b = step Symbol.ofByte ⟨.word [], c⟩ b := by
  have hsym : ¬ (Symbol.ofByte b = .blank ∨ Symbol.ofByte b = .newline)
      ∧ Symbol.ofByte b ≠ .hash := by
    rcases h with hb | rfl | rfl
    · rw [Style.ofByte_of_holds_unquoted hb]
      decide
    · decide
    · decide
  rw [Splitter.step_gap hsym.1 hsym.2, step_word hsym.1]

/-- Where a word can start, a quoted word is gathered as the word that it stands for. -/
theorem run_quote {w : Bytes} (h : 0 ∉ w) (c : List Bytes) :
    Splitter.run Symbol.ofByte ⟨.gap, c⟩ (quote w) = ⟨.word w.reverse, c⟩ := by
  have hstart : Splitter.run Symbol.ofByte ⟨.gap, c⟩ (quote w)
      = Splitter.run Symbol.ofByte ⟨.word [], c⟩ (quote w) := by
    obtain ⟨b, l, hb, hedge⟩ := quote_first h
    rw [hb, run_cons, run_cons, hedge.step_gap]
  rw [hstart, quote_eq h]
  split
  · rename_i hw
    subst hw
    rfl
  · rw [run_flatMap_write (chunks_fit w), flatMap_chunks, List.append_nil]

/-! ## Command lines -/

theorem finish_run_commandLine {ws : List Bytes} (h : ∀ w ∈ ws, 0 ∉ w) (c : List Bytes) :
    (Splitter.run Symbol.ofByte ⟨.gap, c⟩ (commandLine ws)).finish = some (c.reverse ++ ws) := by
  induction ws generalizing c with
  | nil => simp [commandLine, finish]
  | cons w ws ih =>
      have hw : 0 ∉ w := h w List.mem_cons_self
      cases ws with
      | nil =>
          rw [commandLine_singleton, run_quote hw]
          simp [finish]
      | cons v ws =>
          rw [commandLine_cons_cons, run_append, run_quote hw, run_cons,
            step_word_separator (.inl Symbol.ofByte_space),
            ih (fun x hx => h x (List.mem_cons_of_mem w hx))]
          simp

/-- Splitting a command line gives back the words that it was written from. -/
theorem split_commandLine {ws : List Bytes} (h : ∀ w ∈ ws, 0 ∉ w) :
    split (commandLine ws) = some ws :=
  finish_run_commandLine h []

/-- Three chunks: the circumflex stands at the start of a chunk of its own. -/
example : quote (Utf8.encode "it's^x") = Utf8.encode "\"it's\"'^x'" := by decide

end LastMatch.Words
