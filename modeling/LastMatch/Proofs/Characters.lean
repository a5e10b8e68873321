import LastMatch.Proofs.Steps
import LastMatch.Proofs.Texts

/-!
# Splitting bytes and splitting characters

The splitter reads the bytes of a text as it would read the characters. After a whole character the
two stand in the same place and have gathered the same letters (`Splitter.Mirrors.step`), because
every byte of a character outside ASCII is plain: whatever takes the first of them, the others are
gathered where it has led. So the words of a text are texts (`split_encodeChars`).
-/

namespace LastMatch.Words

open Utf8

/-! ## Letters gathered on the two sides -/

/-- The bytes of gathered characters. Both lists have the last letter first. -/
def spell (w : List Char) : Bytes := (encodeChars w.reverse).reverse

@[simp] theorem spell_nil : spell [] = [] := rfl

theorem spell_cons (a : Char) (w : List Char) :
    spell (a :: w) = (String.utf8EncodeChar a).reverse ++ spell w := by
  simp [spell]

@[simp] theorem reverse_spell (w : List Char) : (spell w).reverse = encodeChars w.reverse := by
  simp [spell]

/-- The two splitters stand in the same place. -/
inductive Place.Mirrors : Place Char → Place UInt8 → Prop where
  | gap : Mirrors .gap .gap
  | comment : Mirrors .comment .comment
  | word (w : List Char) : Mirrors (.word w) (.word (spell w))
  | escaped (w : List Char) : Mirrors (.escaped w) (.escaped (spell w))
  | single (w : List Char) : Mirrors (.single w) (.single (spell w))
  | double (w : List Char) : Mirrors (.double w) (.double (spell w))
  | doubleEscaped (w : List Char) :
      Mirrors (.doubleEscaped w '\\') (.doubleEscaped (spell w) '\\'.toUInt8)

/-- The two splitters stand in the same place and have completed the same words. -/
structure Splitter.Mirrors (s : Splitter Char) (t : Splitter UInt8) : Prop where
  place : s.place.Mirrors t.place
  complete : t.complete = s.complete.map encodeChars

namespace Splitter

/-! ## One character -/

theorem ofByte_toUInt8 {a : Char} (h : a.toNat < 0x80) :
    Symbol.ofByte a.toUInt8 = Symbol.ofChar a := by
  have ha : a.toUInt8.toNat = a.toNat := by
    show a.toNat % 256 = a.toNat
    omega
  rw [Symbol.ofByte, Symbol.ofChar, ha]

theorem eq_of_ofChar_backslash {a : Char} (h : Symbol.ofChar a = .backslash) : a = '\\' := by
  have ha : a.toNat = 0x5C := by
    unfold Symbol.ofChar Symbol.ofCode at h
    split at h <;> first | assumption | cases h
  exact Char.toNat_inj.mp ha

/-- Where a letter in a word leads, it leads on both sides. -/
theorem mirrors_inWord {a : Char} (ha : a.toNat < 0x80) (w : List Char) :
    (inWord w (Symbol.ofChar a) a).Mirrors
      (inWord (spell w) (Symbol.ofByte a.toUInt8) a.toUInt8) := by
  have hspell : a.toUInt8 :: spell w = spell (a :: w) := by
    rw [spell_cons, utf8EncodeChar_of_lt ha]
    rfl
  rw [ofByte_toUInt8 ha]
  cases Symbol.ofChar a with
  | backslash => exact .escaped w
  | apostrophe => exact .single w
  | quote => exact .double w
  | blank | newline | hash | dollar | plain =>
      simp only [inWord]
      rw [hspell]
      exact .word (a :: w)

/-- A character in ASCII is one byte that plays the same part. -/
theorem Mirrors.step_ascii {s : Splitter Char} {t : Splitter UInt8} (h : s.Mirrors t) {a : Char}
    (ha : a.toNat < 0x80) :
    (s.step Symbol.ofChar a).Mirrors (t.step Symbol.ofByte a.toUInt8) := by
  obtain ⟨p, c⟩ := s
  obtain ⟨q, d⟩ := t
  obtain ⟨hp, rfl⟩ := h
  have hk := ofByte_toUInt8 ha
  have hspell : ∀ w, a.toUInt8 :: spell w = spell (a :: w) := by
    intro w
    rw [spell_cons, utf8EncodeChar_of_lt ha]
    rfl
  cases hp with
  | gap =>
      by_cases hsep : Symbol.ofChar a = .blank ∨ Symbol.ofChar a = .newline
      · rw [step_gap_separator hsep, step_gap_separator (hk ▸ hsep)]
        exact ⟨.gap, rfl⟩
      by_cases hhash : Symbol.ofChar a = .hash
      · rw [step_gap_hash hhash, step_gap_hash (hk ▸ hhash)]
        exact ⟨.comment, rfl⟩
      · rw [step_gap hsep hhash, step_gap (hk ▸ hsep) (hk ▸ hhash)]
        exact ⟨mirrors_inWord ha [], rfl⟩
  | comment =>
      by_cases hn : Symbol.ofChar a = .newline
      · rw [step_comment_newline hn, step_comment_newline (hk ▸ hn)]
        exact ⟨.gap, rfl⟩
      · rw [step_comment hn, step_comment (hk ▸ hn)]
        exact ⟨.comment, rfl⟩
  | word w =>
      by_cases hsep : Symbol.ofChar a = .blank ∨ Symbol.ofChar a = .newline
      · rw [step_word_separator hsep, step_word_separator (hk ▸ hsep), reverse_spell]
        exact ⟨.gap, rfl⟩
      · rw [step_word hsep, step_word (hk ▸ hsep)]
        exact ⟨mirrors_inWord ha w, rfl⟩
  | escaped w =>
      by_cases hn : Symbol.ofChar a = .newline
      · rw [step_escaped_newline hn, step_escaped_newline (hk ▸ hn)]
        exact ⟨.word w, rfl⟩
      · rw [step_escaped hn, step_escaped (hk ▸ hn), hspell]
        exact ⟨.word (a :: w), rfl⟩
  | single w =>
      by_cases hq : Symbol.ofChar a = .apostrophe
      · rw [step_single_apostrophe hq, step_single_apostrophe (hk ▸ hq)]
        exact ⟨.word w, rfl⟩
      · rw [step_single hq, step_single (hk ▸ hq), hspell]
        exact ⟨.single (a :: w), rfl⟩
  | double w =>
      by_cases hq : Symbol.ofChar a = .quote
      · rw [step_double_quote hq, step_double_quote (hk ▸ hq)]
        exact ⟨.word w, rfl⟩
      by_cases hb : Symbol.ofChar a = .backslash
      · rw [step_double_backslash hb, step_double_backslash (hk ▸ hb), eq_of_ofChar_backslash hb]
        exact ⟨.doubleEscaped w, rfl⟩
      · rw [step_double hq hb, step_double (hk ▸ hq) (hk ▸ hb), hspell]
        exact ⟨.double (a :: w), rfl⟩
  | doubleEscaped w =>
      by_cases hn : Symbol.ofChar a = .newline
      · rw [step_doubleEscaped_newline hn, step_doubleEscaped_newline (hk ▸ hn)]
        exact ⟨.double w, rfl⟩
      cases hg : (Symbol.ofChar a).isGuarded with
      | true =>
          rw [step_doubleEscaped_guarded hg, step_doubleEscaped_guarded (hk ▸ hg), hspell]
          exact ⟨.double (a :: w), rfl⟩
      | false =>
          have hpair : a.toUInt8 :: '\\'.toUInt8 :: spell w = spell (a :: '\\' :: w) := by
            rw [← hspell, spell_cons '\\']
            rfl
          rw [step_doubleEscaped hn hg, step_doubleEscaped (hk ▸ hn) (hk ▸ hg), hpair]
          exact ⟨.double (a :: '\\' :: w), rfl⟩

/-- A character outside ASCII is plain, and so are all its bytes. -/
theorem Mirrors.run_wide {s : Splitter Char} {t : Splitter UInt8} (h : s.Mirrors t) {a : Char}
    (ha : 0x80 ≤ a.toNat) :
    (s.step Symbol.ofChar a).Mirrors (t.run Symbol.ofByte (String.utf8EncodeChar a)) := by
  obtain ⟨p, c⟩ := s
  obtain ⟨q, d⟩ := t
  obtain ⟨hp, rfl⟩ := h
  have hchar : Symbol.ofChar a = .plain := Symbol.ofCode_eq_plain ha
  obtain ⟨b, bs, hbytes⟩ := List.exists_cons_of_ne_nil (String.utf8EncodeChar_ne_nil (c := a))
  have hplain : ∀ x ∈ b :: bs, Symbol.ofByte x = .plain := by
    intro x hx
    rw [← hbytes] at hx
    exact Symbol.ofCode_eq_plain (UInt8.le_iff_toNat_le.mp (le_of_mem_utf8EncodeChar ha x hx))
  have hne : ∀ x ∈ b :: bs, Symbol.ofByte x ≠ .newline ∧ Symbol.ofByte x ≠ .apostrophe := by
    intro x hx
    rw [hplain x hx]
    decide
  have hb : Symbol.ofByte b = .plain := hplain b List.mem_cons_self
  have hbs : ∀ x ∈ bs, Symbol.ofByte x = .plain := fun x hx => hplain x (List.mem_cons_of_mem b hx)
  have hspell : ∀ w, (b :: bs).reverse ++ spell w = spell (a :: w) := by
    intro w
    rw [spell_cons, hbytes]
  have hspell' : ∀ w, bs.reverse ++ b :: spell w = spell (a :: w) := by
    intro w
    rw [← hspell, List.reverse_cons, List.append_assoc]
    rfl
  rw [hbytes]
  cases hp with
  | gap =>
      rw [step_gap (by simp [hchar]) (by simp [hchar]), hchar, run_cons,
        step_gap (by simp [hb]) (by simp [hb]), hb]
      simp only [inWord]
      rw [run_word hbs, ← spell_nil, hspell' []]
      exact ⟨.word [a], rfl⟩
  | comment =>
      rw [step_comment (by simp [hchar]), run_comment (fun x hx => (hne x hx).1)]
      exact ⟨.comment, rfl⟩
  | word w =>
      rw [step_word (by simp [hchar]), hchar, run_word hplain, hspell]
      exact ⟨.word (a :: w), rfl⟩
  | escaped w =>
      rw [step_escaped (by simp [hchar]), run_cons, step_escaped (by simp [hb]), run_word hbs,
        hspell']
      exact ⟨.word (a :: w), rfl⟩
  | single w =>
      rw [step_single (by simp [hchar]), run_single (fun x hx => (hne x hx).2), hspell]
      exact ⟨.single (a :: w), rfl⟩
  | double w =>
      rw [step_double (by simp [hchar]) (by simp [hchar]), run_double hplain, hspell]
      exact ⟨.double (a :: w), rfl⟩
  | doubleEscaped w =>
      have hpair : bs.reverse ++ b :: '\\'.toUInt8 :: spell w = spell (a :: '\\' :: w) := by
        rw [← hspell', spell_cons '\\']
        rfl
      rw [step_doubleEscaped (by simp [hchar]) (by simp [hchar, Symbol.isGuarded]), run_cons,
        step_doubleEscaped (by simp [hb]) (by simp [hb, Symbol.isGuarded]), run_double hbs, hpair]
      exact ⟨.double (a :: '\\' :: w), rfl⟩

/-! ## Whole texts -/

theorem Mirrors.run {s : Splitter Char} {t : Splitter UInt8} (h : s.Mirrors t) (cs : List Char) :
    (s.run Symbol.ofChar cs).Mirrors (t.run Symbol.ofByte (encodeChars cs)) := by
  induction cs generalizing s t with
  | nil => exact h
  | cons a cs ih =>
      rw [run_cons, encodeChars_cons, run_append]
      apply ih
      rcases Nat.lt_or_ge a.toNat 0x80 with ha | ha
      · rw [utf8EncodeChar_of_lt ha]
        exact h.step_ascii ha
      · exact h.run_wide ha

theorem Mirrors.finish {s : Splitter Char} {t : Splitter UInt8} (h : s.Mirrors t) :
    t.finish = s.finish.map (List.map encodeChars) := by
  obtain ⟨p, c⟩ := s
  obtain ⟨q, d⟩ := t
  obtain ⟨hp, rfl⟩ := h
  cases hp <;> simp [Splitter.finish]

end Splitter

/-- The words of a text's bytes are the bytes of its words. -/
theorem split_encodeChars (cs : List Char) :
    split (encodeChars cs) = (splitBy Symbol.ofChar cs).map (List.map encodeChars) := by
  have hstart : (Splitter.start : Splitter Char).Mirrors Splitter.start := ⟨.gap, rfl⟩
  exact (hstart.run cs).finish

/-- A text is split into texts. -/
theorem isText_of_split {line : Bytes} {ws : List Bytes} (hl : IsText line)
    (h : split line = some ws) : ∀ w ∈ ws, IsText w := by
  obtain ⟨cs, rfl⟩ := hl
  rw [split_encodeChars, Option.map_eq_some_iff] at h
  obtain ⟨vs, _, rfl⟩ := h
  intro w hw
  obtain ⟨v, _, rfl⟩ := List.mem_map.mp hw
  exact ⟨v, rfl⟩

end LastMatch.Words
