import LastMatch.Words.Split

/-!
# Steps and runs of the splitter

What one letter does at each place, with the places and letters told apart as far as they matter,
and the runs over letters that keep the splitter where it is. The lemmas hold for letters of any
type.
-/

namespace LastMatch.Words.Splitter

variable {α : Type} {kind : α → Symbol} {c : List (List α)} {a : α} {w : List α}

/-! ## Between words -/

theorem step_gap_separator (h : kind a = .blank ∨ kind a = .newline) :
    step kind ⟨.gap, c⟩ a = ⟨.gap, c⟩ := by
  rcases h with h | h <;> simp [step, h]

theorem step_gap_hash (h : kind a = .hash) : step kind ⟨.gap, c⟩ a = ⟨.comment, c⟩ := by
  simp [step, h]

/-- A letter that can start a word is read between words as it is at the start of a word. -/
theorem step_gap (hs : ¬ (kind a = .blank ∨ kind a = .newline)) (hh : kind a ≠ .hash) :
    step kind ⟨.gap, c⟩ a = ⟨inWord [] (kind a) a, c⟩ := by
  cases hk : kind a <;> simp_all [step]

theorem step_comment_newline (h : kind a = .newline) :
    step kind ⟨.comment, c⟩ a = ⟨.gap, c⟩ := by
  simp [step, h]

theorem step_comment (h : kind a ≠ .newline) : step kind ⟨.comment, c⟩ a = ⟨.comment, c⟩ := by
  simp [step]

/-! ## In a word -/

theorem step_word_separator (h : kind a = .blank ∨ kind a = .newline) :
    step kind ⟨.word w, c⟩ a = ⟨.gap, w.reverse :: c⟩ := by
  rcases h with h | h <;> simp [step, h]

theorem step_word (hs : ¬ (kind a = .blank ∨ kind a = .newline)) :
    step kind ⟨.word w, c⟩ a = ⟨inWord w (kind a) a, c⟩ := by
  cases hk : kind a <;> simp_all [step]

theorem inWord_backslash (h : kind a = .backslash) : inWord w (kind a) a = .escaped w := by
  rw [h, inWord]

theorem inWord_apostrophe (h : kind a = .apostrophe) : inWord w (kind a) a = .single w := by
  rw [h, inWord]

theorem inWord_quote (h : kind a = .quote) : inWord w (kind a) a = .double w := by
  rw [h, inWord]

/-- Any other letter in a word stands for itself. -/
theorem inWord_of_ne (hb : kind a ≠ .backslash) (hs : kind a ≠ .apostrophe)
    (hd : kind a ≠ .quote) : inWord w (kind a) a = .word (a :: w) := by
  cases hk : kind a <;> simp_all [inWord]

theorem step_escaped_newline (h : kind a = .newline) :
    step kind ⟨.escaped w, c⟩ a = ⟨.word w, c⟩ := by
  simp [step, h]

theorem step_escaped (h : kind a ≠ .newline) :
    step kind ⟨.escaped w, c⟩ a = ⟨.word (a :: w), c⟩ := by
  simp [step]

/-! ## Between quotation marks -/

theorem step_single_apostrophe (h : kind a = .apostrophe) :
    step kind ⟨.single w, c⟩ a = ⟨.word w, c⟩ := by
  simp [step, h]

theorem step_single (h : kind a ≠ .apostrophe) :
    step kind ⟨.single w, c⟩ a = ⟨.single (a :: w), c⟩ := by
  simp [step]

theorem step_double_quote (h : kind a = .quote) :
    step kind ⟨.double w, c⟩ a = ⟨.word w, c⟩ := by
  simp [step, h]

theorem step_double_backslash (h : kind a = .backslash) :
    step kind ⟨.double w, c⟩ a = ⟨.doubleEscaped w a, c⟩ := by
  simp [step, h]

theorem step_double (hq : kind a ≠ .quote) (hb : kind a ≠ .backslash) :
    step kind ⟨.double w, c⟩ a = ⟨.double (a :: w), c⟩ := by
  simp [step]

theorem step_doubleEscaped_newline {b : α} (h : kind a = .newline) :
    step kind ⟨.doubleEscaped w b, c⟩ a = ⟨.double w, c⟩ := by
  simp [step, h]

theorem step_doubleEscaped_guarded {b : α} (h : (kind a).isGuarded = true) :
    step kind ⟨.doubleEscaped w b, c⟩ a = ⟨.double (a :: w), c⟩ := by
  have hn : kind a ≠ .newline := by
    intro hk
    rw [hk] at h
    cases h
  simp [step, h]

theorem step_doubleEscaped {b : α} (hn : kind a ≠ .newline) (h : (kind a).isGuarded = false) :
    step kind ⟨.doubleEscaped w b, c⟩ a = ⟨.double (a :: b :: w), c⟩ := by
  simp [step, h]

/-! ## Where a step comes from -/

/-- Only a backslash between words or in a word leads to the place after a backslash. -/
theorem of_step_escaped {s : Splitter α} (h : (step kind s a).place = .escaped w) :
    kind a = .backslash ∧ (s.place = .gap ∨ s.place = .word w) := by
  obtain ⟨p, c⟩ := s
  cases p <;> cases hk : kind a <;> simp_all [step, inWord]

/-- And only a backslash between double quotation marks leads to the place after one there. -/
theorem of_step_doubleEscaped {s : Splitter α} {b : α}
    (h : (step kind s a).place = .doubleEscaped w b) : a = b ∧ kind a = .backslash := by
  obtain ⟨p, c⟩ := s
  cases p <;> cases hk : kind a <;> simp_all [step, inWord]

/-! ## Runs -/

theorem run_comment {l : List α} (h : ∀ a ∈ l, kind a ≠ .newline) :
    run kind ⟨.comment, c⟩ l = ⟨.comment, c⟩ := by
  induction l with
  | nil => rfl
  | cons a l ih =>
      rw [run_cons, step_comment (h a List.mem_cons_self)]
      exact ih (fun x hx => h x (List.mem_cons_of_mem a hx))

theorem run_word {l : List α} (h : ∀ a ∈ l, kind a = .plain) (w : List α) :
    run kind ⟨.word w, c⟩ l = ⟨.word (l.reverse ++ w), c⟩ := by
  induction l generalizing w with
  | nil => rfl
  | cons a l ih =>
      have ha : kind a = .plain := h a List.mem_cons_self
      rw [run_cons, step_word (by simp [ha]), inWord_of_ne (by simp [ha]) (by simp [ha])
        (by simp [ha]), ih (fun x hx => h x (List.mem_cons_of_mem a hx))]
      simp

theorem run_single {l : List α} (h : ∀ a ∈ l, kind a ≠ .apostrophe) (w : List α) :
    run kind ⟨.single w, c⟩ l = ⟨.single (l.reverse ++ w), c⟩ := by
  induction l generalizing w with
  | nil => rfl
  | cons a l ih =>
      rw [run_cons, step_single (h a List.mem_cons_self),
        ih (fun x hx => h x (List.mem_cons_of_mem a hx))]
      simp

theorem run_double {l : List α} (h : ∀ a ∈ l, kind a = .plain) (w : List α) :
    run kind ⟨.double w, c⟩ l = ⟨.double (l.reverse ++ w), c⟩ := by
  induction l generalizing w with
  | nil => rfl
  | cons a l ih =>
      have ha : kind a = .plain := h a List.mem_cons_self
      rw [run_cons, step_double (by simp [ha]) (by simp [ha]),
        ih (fun x hx => h x (List.mem_cons_of_mem a hx))]
      simp

end LastMatch.Words.Splitter
