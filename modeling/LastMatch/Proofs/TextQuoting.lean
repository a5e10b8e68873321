import LastMatch.Proofs.Cutting
import LastMatch.Proofs.Texts

/-!
# Quoting keeps characters whole

The cut of a text never falls inside a character, since no chunk starts at a byte outside ASCII. So
the quotation marks that it adds stand between characters, and a quoted text is a text.
-/

namespace LastMatch.Words

open Utf8

namespace Cutter

/-- All chunks so far are texts, the growing one included. -/
structure Whole (k : Cutter) : Prop where
  finished : ∀ c ∈ k.finished, IsText c.bytes
  growing : IsText k.growing.reverse

theorem Whole.start : Whole ⟨[], [], []⟩ := ⟨by simp, ⟨[], rfl⟩⟩

theorem Whole.close {k : Cutter} (h : k.Whole) : ∀ c ∈ k.close, IsText c.bytes := by
  unfold Cutter.close
  split
  · exact h.finished
  · intro c hc
    rcases List.mem_cons.mp hc with rfl | hc
    · exact h.growing
    · exact h.finished c hc

theorem Whole.step_ascii {k : Cutter} (h : k.Whole) {b : UInt8} (hb : b < 0x80) :
    (k.step b).Whole := by
  have htext : IsText [b] := isText_singleton hb
  unfold Cutter.step
  split
  · exact ⟨h.finished, htext⟩
  · exact ⟨h.close, htext⟩
  · refine ⟨h.finished, ?_⟩
    rw [List.reverse_cons]
    exact h.growing.append htext

/-- Bytes outside ASCII all go into the growing chunk. -/
theorem Cut.foldl_high {w : Bytes} {k : Cutter} (h : Cut w k) {bs : Bytes}
    (hbs : ∀ b ∈ bs, 0x80 ≤ b) :
    (bs.foldl Cutter.step k).finished = k.finished ∧
      (bs.foldl Cutter.step k).growing = bs.reverse ++ k.growing := by
  induction bs generalizing w k with
  | nil => exact ⟨rfl, rfl⟩
  | cons b bs ih =>
      obtain ⟨hfin, hgrow⟩ := h.step_high (hbs b List.mem_cons_self)
      obtain ⟨hfin', hgrow'⟩ := ih (h.step b) (fun x hx => hbs x (List.mem_cons_of_mem b hx))
      rw [List.foldl_cons, hfin', hgrow', hfin, hgrow]
      exact ⟨rfl, by simp⟩

/-- A whole character leaves whole chunks. -/
theorem Whole.foldl_char {w : Bytes} {k : Cutter} (hcut : Cut w k) (h : k.Whole) (a : Char) :
    ((String.utf8EncodeChar a).foldl Cutter.step k).Whole := by
  rcases Nat.lt_or_ge a.toNat 0x80 with ha | ha
  · have hlt : a.toUInt8 < 0x80 := by
      rw [UInt8.lt_iff_toNat_lt]
      show a.toNat % 256 < 0x80
      omega
    rw [utf8EncodeChar_of_lt ha]
    exact h.step_ascii hlt
  · obtain ⟨hfin, hgrow⟩ := hcut.foldl_high (le_of_mem_utf8EncodeChar ha)
    refine ⟨?_, ?_⟩
    · rw [hfin]
      exact h.finished
    · rw [hgrow, List.reverse_append, List.reverse_reverse]
      exact h.growing.append ⟨[a], (List.append_nil _).symm⟩

theorem Whole.foldl {w : Bytes} {k : Cutter} (hcut : Cut w k) (h : k.Whole) (cs : List Char) :
    ((encodeChars cs).foldl Cutter.step k).Whole := by
  induction cs generalizing w k with
  | nil => exact h
  | cons a cs ih =>
      rw [encodeChars_cons, List.foldl_append]
      exact ih (hcut.foldl _) (h.foldl_char hcut a)

end Cutter

theorem isText_of_mem_chunks {w : Bytes} (hw : IsText w) : ∀ c ∈ chunks w, IsText c.bytes := by
  obtain ⟨cs, rfl⟩ := hw
  intro c hc
  exact (Cutter.Whole.start.foldl .start cs).close c (List.mem_reverse.mp hc)

/-! ## Written texts -/

theorem flatMap_guarded_of_high {bs : Bytes} (h : ∀ b ∈ bs, 0x80 ≤ b) :
    bs.flatMap Chunk.guarded = bs := by
  induction bs with
  | nil => rfl
  | cons b bs ih =>
      have hb : ¬ (b = '"'.toUInt8 ∨ b = '\\'.toUInt8) := by
        rintro (rfl | rfl) <;> exact absurd (h _ List.mem_cons_self) (by decide)
      rw [List.flatMap_cons, Chunk.guarded, if_neg hb,
        ih (fun x hx => h x (List.mem_cons_of_mem b hx))]
      rfl

/-- Only bytes in ASCII are guarded, so the guards stand between characters. -/
theorem isText_flatMap_guarded {bs : Bytes} (h : IsText bs) :
    IsText (bs.flatMap Chunk.guarded) := by
  obtain ⟨cs, rfl⟩ := h
  induction cs with
  | nil => exact ⟨[], rfl⟩
  | cons a cs ih =>
      have hchar : IsText (String.utf8EncodeChar a) := ⟨[a], (List.append_nil _).symm⟩
      rw [encodeChars_cons, List.flatMap_append]
      refine IsText.append ?_ ih
      rcases Nat.lt_or_ge a.toNat 0x80 with ha | ha
      · rw [utf8EncodeChar_of_lt ha] at hchar ⊢
        rw [List.flatMap_singleton, Chunk.guarded]
        split
        · exact (isText_singleton (by decide : '\\'.toUInt8 < 0x80)).append hchar
        · exact hchar
      · rw [flatMap_guarded_of_high (le_of_mem_utf8EncodeChar ha)]
        exact hchar

theorem Chunk.isText_write {c : Chunk} (h : IsText c.bytes) : IsText c.write := by
  cases hs : c.style with
  | unquoted =>
      rw [Chunk.write_unquoted hs]
      exact h
  | single =>
      have hq : IsText ['\''.toUInt8] := isText_singleton (by decide)
      rw [Chunk.write_single hs]
      exact hq.append (h.append hq)
  | double =>
      have hq : IsText ['"'.toUInt8] := isText_singleton (by decide)
      rw [Chunk.write_double hs]
      exact hq.append ((isText_flatMap_guarded h).append hq)

theorem isText_flatMap_write {cs : List Chunk} (h : ∀ c ∈ cs, IsText c.bytes) :
    IsText (cs.flatMap Chunk.write) := by
  induction cs with
  | nil => exact ⟨[], rfl⟩
  | cons c cs ih =>
      rw [List.flatMap_cons]
      exact (Chunk.isText_write (h c List.mem_cons_self)).append
        (ih (fun x hx => h x (List.mem_cons_of_mem c hx)))

theorem isText_quote {w : Bytes} (h : 0 ∉ w) (hw : IsText w) : IsText (quote w) := by
  rw [quote_eq h]
  split
  · exact ⟨['\'', '\''], by decide⟩
  · exact isText_flatMap_write (isText_of_mem_chunks hw)

theorem isText_commandLine {ws : List Bytes} (h : ∀ w ∈ ws, 0 ∉ w) (hws : ∀ w ∈ ws, IsText w) :
    IsText (commandLine ws) :=
  commandLine_induction ⟨[], rfl⟩ (isText_singleton (by decide)) IsText.append
    fun w hw => isText_quote (h w hw) (hws w hw)

end LastMatch.Words
