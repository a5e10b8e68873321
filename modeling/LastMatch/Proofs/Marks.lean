import LastMatch.Proofs.Cutting

/-!
# What a command line adds to its words

Quoting puts quotation marks and backslashes around and between the bytes of a word, and a space is
put between two words. These bytes are marks. All other bytes of a command line come from its words,
and those that are neighbours in the line are neighbours in a word.

* `Marked` says that a line is a word with marks put in.
* `count_commandLine` and `infix_of_infix_commandLine` say what that means for a command line: no
  other byte is added, and a part of the line that has no marks is a part of one of the words.
-/

namespace LastMatch.Words

/-- The bytes that are added to words where they are written: quotation marks, the backslash, the
space between two words, and the newline behind the last one. -/
def marks : Bytes := ['\''.toUInt8, '"'.toUInt8, '\\'.toUInt8, ' '.toUInt8, '\n'.toUInt8]

/-- The line is the word with marks put in. -/
inductive Marked : Bytes → Bytes → Prop where
  | nil : Marked [] []
  | keep {w line : Bytes} (b : UInt8) : Marked w line → Marked (b :: w) (b :: line)
  | mark {w line : Bytes} {b : UInt8} : b ∈ marks → Marked w line → Marked w (b :: line)

variable {w v line line' t : Bytes} {b : UInt8}

namespace Marked

theorem refl (w : Bytes) : Marked w w := by
  induction w with
  | nil => exact .nil
  | cons b w ih => exact .keep b ih

theorem append (h : Marked w line) (h' : Marked v line') : Marked (w ++ v) (line ++ line') := by
  induction h with
  | nil => exact h'
  | keep b _ ih => exact .keep b ih
  | mark hb _ ih => exact .mark hb ih

/-- Between marks there is nothing but the word. -/
theorem enclosed (h : Marked w line) {a b : UInt8} (ha : a ∈ marks) (hb : b ∈ marks) :
    Marked w (a :: (line ++ [b])) := by
  have hend := h.append (.mark hb .nil)
  rw [List.append_nil] at hend
  exact .mark ha hend

/-! ### What is left of a line without its marks -/

theorem count_eq (h : Marked w line) (hb : b ∉ marks) : line.count b = w.count b := by
  induction h with
  | nil => rfl
  | keep c _ ih => rw [List.count_cons, List.count_cons, ih]
  | @mark w line c hc _ ih =>
      have hne : c ≠ b := fun heq => hb (heq ▸ hc)
      rw [List.count_cons_of_ne hne, ih]

theorem prefix_of_line (h : Marked w line) (ht : ∀ x ∈ t, x ∉ marks) (hpre : t <+: line) :
    t <+: w := by
  induction h generalizing t with
  | nil => exact hpre
  | keep b _ ih =>
      rcases List.prefix_cons_iff.mp hpre with rfl | ⟨t, rfl, hrest⟩
      · exact List.nil_prefix
      · exact (List.prefix_cons_inj b).mpr (ih (fun x hx => ht x (List.mem_cons_of_mem b hx)) hrest)
  | @mark w line b hb _ ih =>
      rcases List.prefix_cons_iff.mp hpre with rfl | ⟨t, rfl, -⟩
      · exact List.nil_prefix
      · exact absurd hb (ht b List.mem_cons_self)

/-- A part of the line that has no marks is a part of the word. -/
theorem infix_of_line (h : Marked w line) (ht : ∀ x ∈ t, x ∉ marks) (hin : t <:+: line) :
    t <:+: w := by
  induction h with
  | nil => exact hin
  | @keep w line b hkept ih =>
      rcases List.infix_cons_iff.mp hin with hpre | hin
      · exact ((hkept.keep b).prefix_of_line ht hpre).isInfix
      · exact List.infix_cons (ih hin)
  | mark hb hkept ih =>
      rcases List.infix_cons_iff.mp hin with hpre | hin
      · exact ((hkept.mark hb).prefix_of_line ht hpre).isInfix
      · exact ih hin

end Marked

/-! ## Quoted words -/

theorem marked_flatMap_guarded (bs : Bytes) : Marked bs (bs.flatMap Chunk.guarded) := by
  induction bs with
  | nil => exact .nil
  | cons b bs ih =>
      rw [List.flatMap_cons, Chunk.guarded]
      split
      · exact .mark (by decide) (.keep b ih)
      · exact .keep b ih

theorem Chunk.marked_write (c : Chunk) : Marked c.bytes c.write := by
  cases hs : c.style with
  | unquoted =>
      rw [write_unquoted hs]
      exact .refl c.bytes
  | single =>
      rw [write_single hs]
      exact (Marked.refl c.bytes).enclosed (by decide) (by decide)
  | double =>
      rw [write_double hs]
      exact (marked_flatMap_guarded c.bytes).enclosed (by decide) (by decide)

theorem marked_flatMap_write (cs : List Chunk) :
    Marked (cs.flatMap Chunk.bytes) (cs.flatMap Chunk.write) := by
  induction cs with
  | nil => exact .nil
  | cons c cs ih =>
      rw [List.flatMap_cons, List.flatMap_cons]
      exact c.marked_write.append ih

theorem marked_quote (w : Bytes) : Marked w (quote w) := by
  by_cases h : 0 ∈ w
  · rw [quote, if_pos h]
    exact .refl w
  · rw [quote_eq h]
    split
    · rename_i hw
      rw [hw]
      exact Marked.nil.enclosed (by decide) (by decide)
    · have hmarked := marked_flatMap_write (chunks w)
      rwa [flatMap_chunks] at hmarked

/-! ## Command lines -/

theorem count_commandLine (ws : List Bytes) (hb : b ∉ marks) :
    (commandLine ws).count b = ws.flatten.count b := by
  have hspace : ' '.toUInt8 ≠ b := fun heq => hb (heq ▸ by decide)
  induction ws with
  | nil => rfl
  | cons w ws ih =>
      have hw := (marked_quote w).count_eq hb
      cases ws with
      | nil => rw [commandLine_singleton, hw, List.flatten_cons, List.flatten_nil, List.append_nil]
      | cons v ws =>
          rw [commandLine_cons_cons, List.count_append, List.count_cons_of_ne hspace, ih, hw,
            ← List.count_append]
          rfl

/-- What does not contain a separator stands on one side of it. -/
theorem infix_of_infix_append_cons (hb : b ∉ t) (hin : t <:+: w ++ b :: v) :
    t <:+: w ∨ t <:+: v := by
  rcases List.infix_append_iff.mp hin with hin | hin | ⟨front, back, rfl, hfront, hback⟩
  · exact .inl hin
  · rcases List.infix_cons_iff.mp hin with hpre | hin
    · rcases List.prefix_cons_iff.mp hpre with rfl | ⟨t, rfl, -⟩
      · exact .inl List.nil_infix
      · exact absurd List.mem_cons_self hb
    · exact .inr hin
  · rcases List.prefix_cons_iff.mp hback with rfl | ⟨back, rfl, -⟩
    · rw [List.append_nil]
      exact .inl hfront.isInfix
    · exact absurd (List.mem_append_right front List.mem_cons_self) hb

theorem infix_of_infix_commandLine {ws : List Bytes} (hne : t ≠ []) (ht : ∀ x ∈ t, x ∉ marks)
    (hin : t <:+: commandLine ws) : ∃ w ∈ ws, t <:+: w := by
  have hspace : ' '.toUInt8 ∉ t := fun hmem => ht _ hmem (by decide)
  induction ws with
  | nil => exact absurd (List.infix_nil.mp hin) hne
  | cons w ws ih =>
      have hw : t <:+: quote w → ∃ x ∈ w :: ws, t <:+: x :=
        fun hin => ⟨w, List.mem_cons_self, (marked_quote w).infix_of_line ht hin⟩
      cases ws with
      | nil =>
          rw [commandLine_singleton] at hin
          exact hw hin
      | cons v ws =>
          rw [commandLine_cons_cons] at hin
          rcases infix_of_infix_append_cons hspace hin with hin | hin
          · exact hw hin
          · obtain ⟨x, hx, hin⟩ := ih hin
            exact ⟨x, List.mem_cons_of_mem w hx, hin⟩

end LastMatch.Words
