import LastMatch.Proofs.Letters

/-!
# How a word is cut

The cut of a word loses nothing and puts no byte into a style that cannot hold it. `Cutter.Cut` is
what holds of a cutter after it has taken some bytes; a step keeps it (`Cutter.Cut.step`), and so a
whole word leaves chunks that fit and that together are the word (`chunks_fit`, `flatMap_chunks`).
-/

namespace LastMatch.Words

namespace Chunk

theorem write_unquoted {c : Chunk} (h : c.style = .unquoted) : c.write = c.bytes := by
  rw [write, h]

theorem write_single {c : Chunk} (h : c.style = .single) :
    c.write = '\''.toUInt8 :: (c.bytes ++ ['\''.toUInt8]) := by
  rw [write, h]
  rfl

theorem write_double {c : Chunk} (h : c.style = .double) :
    c.write = '"'.toUInt8 :: (c.bytes.flatMap guarded ++ ['"'.toUInt8]) := by
  rw [write, h]
  rfl

/-- A chunk that can be written: there is a first byte, with which a chunk of the style can open,
and the style holds all the bytes after it. -/
def Fits (c : Chunk) : Prop :=
  ∃ b bs, c.bytes = b :: bs ∧ c.style ∈ Style.opening b ∧ ∀ x ∈ bs, c.style.holds x = true

theorem Fits.bytes_ne_nil {c : Chunk} (h : c.Fits) : c.bytes ≠ [] := by
  obtain ⟨b, bs, hc, _, _⟩ := h
  rw [hc]
  exact List.cons_ne_nil b bs

/-- Every byte of the chunk is held by its style. The one exception is a circumflex that opens a
chunk in single quotes. -/
theorem Fits.holds {c : Chunk} (h : c.Fits) {x : UInt8} (hx : x ∈ c.bytes) :
    c.style.holds x = true ∨ x = '^'.toUInt8 ∧ c.style = .single := by
  obtain ⟨b, bs, hc, hopen, hrest⟩ := h
  rw [hc] at hx
  rcases List.mem_cons.mp hx with rfl | hx
  · exact Style.holds_of_mem_opening hopen
  · exact .inl (hrest x hx)

theorem Fits.holds_unquoted {c : Chunk} (h : c.Fits) (hs : c.style = .unquoted) :
    ∀ x ∈ c.bytes, Style.unquoted.holds x = true := by
  intro x hx
  rcases h.holds hx with hh | ⟨_, hh⟩
  · rwa [hs] at hh
  · rw [hs] at hh
    cases hh

theorem Fits.holds_double {c : Chunk} (h : c.Fits) (hs : c.style = .double) :
    ∀ x ∈ c.bytes, Style.double.holds x = true := by
  intro x hx
  rcases h.holds hx with hh | ⟨_, hh⟩
  · rwa [hs] at hh
  · rw [hs] at hh
    cases hh

/-- Single quotes enclose neither another single quotation mark nor a backslash. -/
theorem Fits.ne_of_single {c : Chunk} (h : c.Fits) (hs : c.style = .single) :
    ∀ x ∈ c.bytes, x ≠ '\''.toUInt8 ∧ x ≠ '\\'.toUInt8 := by
  intro x hx
  rcases h.holds hx with hh | ⟨rfl, _⟩
  · rw [hs] at hh
    obtain ⟨hq, hb, _⟩ := Style.ne_of_holds_single hh
    exact ⟨hq, hb⟩
  · exact ⟨by decide, by decide⟩

/-- A growing chunk takes a further byte that its style holds. -/
theorem Fits.snoc {s : Style} {bs : Bytes} {b : UInt8} (h : Fits ⟨s, bs⟩)
    (hb : s.holds b = true) : Fits ⟨s, bs ++ [b]⟩ := by
  obtain ⟨a, as, hbs, hopen, hrest⟩ := h
  refine ⟨a, as ++ [b], by simp_all, hopen, ?_⟩
  intro x hx
  rcases List.mem_append.mp hx with hx | hx
  · exact hrest x hx
  · rw [List.mem_singleton.mp hx]
    exact hb

theorem fits_singleton {s : Style} {b : UInt8} (h : s ∈ Style.opening b) : Fits ⟨s, [b]⟩ :=
  ⟨b, [], rfl, h, by simp⟩

end Chunk

namespace Cutter

/-- What holds of a cutter that has taken the bytes `w`. -/
structure Cut (w : Bytes) (k : Cutter) : Prop where
  bytes : k.finished.reverse.flatMap Chunk.bytes ++ k.growing.reverse = w
  finished : ∀ c ∈ k.finished, c.Fits
  growing : k.growing ≠ [] → ∀ s ∈ k.styles, Chunk.Fits ⟨s, k.growing.reverse⟩
  styles : k.growing ≠ [] → k.styles ≠ []
  single : Style.unquoted ∈ k.styles → Style.single ∈ k.styles

theorem Cut.start : Cut [] ⟨[], [], []⟩ := ⟨rfl, by simp, by simp, by simp, by simp⟩

/-- A chunk that has just been started. -/
theorem Cut.opening {w : Bytes} {cs : List Chunk} (b : UInt8)
    (hw : cs.reverse.flatMap Chunk.bytes = w) (hcs : ∀ c ∈ cs, c.Fits) :
    Cut (w ++ [b]) ⟨cs, [b], Style.opening b⟩ where
  bytes := by simp [hw]
  finished := hcs
  growing := fun _ s hs => Chunk.fits_singleton hs
  styles := fun _ => Style.opening_ne_nil b
  single := Style.single_mem_opening

/-- Closing the growing chunk loses nothing. -/
theorem Cut.flatMap_close {w : Bytes} {k : Cutter} (h : Cut w k) :
    k.close.reverse.flatMap Chunk.bytes = w := by
  have hw := h.bytes
  unfold close
  split
  · rename_i hg
    simpa [hg] using hw
  · simpa using hw

/-- The growing chunk is closed in a style that holds it. -/
theorem Cut.close_fits {w : Bytes} {k : Cutter} (h : Cut w k) : ∀ c ∈ k.close, c.Fits := by
  unfold close
  split
  · exact h.finished
  · rename_i hg
    have hne : k.growing ≠ [] := fun he => hg he
    intro c hc
    rcases List.mem_cons.mp hc with rfl | hc
    · apply h.growing hne
      cases hs : k.styles with
      | nil => exact absurd hs (h.styles hne)
      | cons s ss => exact List.mem_cons_self
    · exact h.finished c hc

/-- One more byte goes into the growing chunk, or opens the next one. -/
theorem Cut.step {w : Bytes} {k : Cutter} (h : Cut w k) (b : UInt8) :
    Cut (w ++ [b]) (k.step b) := by
  unfold Cutter.step
  split
  · rename_i hg
    have hw := h.bytes
    rw [hg, List.reverse_nil, List.append_nil] at hw
    exact .opening b hw h.finished
  · exact .opening b h.flatMap_close h.close_fits
  · rename_i hg hleft
    have hne : k.growing ≠ [] := fun he => hg he
    refine ⟨by rw [← h.bytes]; simp, h.finished, fun _ s hs => ?_, fun _ => hleft, fun hs => ?_⟩
    · obtain ⟨hs, hb⟩ := List.mem_filter.mp hs
      rw [List.reverse_cons]
      exact (h.growing hne s hs).snoc hb
    · obtain ⟨hs, hb⟩ := List.mem_filter.mp hs
      exact List.mem_filter.mpr ⟨h.single hs, Style.holds_single_of_holds_unquoted hb⟩

/-- A byte outside ASCII never starts a chunk within a word: a style of quotation marks is always
left, and both hold it. -/
theorem Cut.step_high {w : Bytes} {k : Cutter} (h : Cut w k) {b : UInt8} (hb : 0x80 ≤ b) :
    (k.step b).finished = k.finished ∧ (k.step b).growing = b :: k.growing := by
  unfold Cutter.step
  split
  · rename_i hg
    rw [hg]
    exact ⟨rfl, rfl⟩
  · rename_i hleft hg
    have hne : k.growing ≠ [] := fun he => hg he
    obtain ⟨s, hs, hheld⟩ : ∃ s ∈ k.styles, s.holds b = true := by
      obtain ⟨s, ss, hss⟩ := List.exists_cons_of_ne_nil (h.styles hne)
      have hs : s ∈ k.styles := hss ▸ List.mem_cons_self
      cases s with
      | unquoted => exact ⟨.single, h.single hs, (Style.holds_of_le hb).1⟩
      | single => exact ⟨.single, hs, (Style.holds_of_le hb).1⟩
      | double => exact ⟨.double, hs, (Style.holds_of_le hb).2⟩
    have hmem : s ∈ k.styles.filter (·.holds b) := List.mem_filter.mpr ⟨hs, hheld⟩
    rw [hleft] at hmem
    cases hmem
  · exact ⟨rfl, rfl⟩

/-- The cutter of a whole word, from one that has taken what stands before. -/
theorem Cut.foldl {w : Bytes} {k : Cutter} (h : Cut w k) (bs : Bytes) :
    Cut (w ++ bs) (bs.foldl Cutter.step k) := by
  induction bs generalizing w k with
  | nil => simpa using h
  | cons b bs ih =>
      rw [List.foldl_cons, List.append_cons]
      exact ih (h.step b)

end Cutter

/-- The chunks of a word, one after another, are the word. -/
theorem flatMap_chunks (w : Bytes) : (chunks w).flatMap Chunk.bytes = w :=
  (Cutter.Cut.start.foldl w).flatMap_close

/-- Every chunk of a word can be written in its style. -/
theorem chunks_fit (w : Bytes) : ∀ c ∈ chunks w, c.Fits := by
  intro c hc
  exact (Cutter.Cut.start.foldl w).close_fits c (List.mem_reverse.mp hc)

theorem chunks_ne_nil {w : Bytes} (hw : w ≠ []) : chunks w ≠ [] := by
  intro h
  apply hw
  rw [← flatMap_chunks w, h, List.flatMap_nil]

/-! ## The two ends of a quoted word -/

/-- A byte that stands first or last in a quoted word: an unquoted one, or a quotation mark. -/
def IsEdge (b : UInt8) : Prop :=
  Style.unquoted.holds b = true ∨ b = '\''.toUInt8 ∨ b = '"'.toUInt8

instance (b : UInt8) : Decidable (IsEdge b) := inferInstanceAs (Decidable (_ ∨ _ ∨ _))

/-- Such a byte is a visible character of ASCII. -/
theorem IsEdge.bounds {b : UInt8} (h : IsEdge b) : ' '.toUInt8 < b ∧ b < 0x80 := by
  revert b
  apply forall_byte
  decide +kernel

theorem IsEdge.ne_space {b : UInt8} (h : IsEdge b) : b ≠ ' '.toUInt8 :=
  fun heq => UInt8.ne_of_lt h.bounds.1 heq.symm

theorem Chunk.Fits.write_edges {c : Chunk} (h : c.Fits) :
    (∃ b l, c.write = b :: l ∧ IsEdge b) ∧ ∃ l b, c.write = l ++ [b] ∧ IsEdge b := by
  cases hs : c.style with
  | unquoted =>
      have hall := h.holds_unquoted hs
      have hne := h.bytes_ne_nil
      rw [Chunk.write_unquoted hs]
      constructor
      · obtain ⟨b, l, hc⟩ := List.exists_cons_of_ne_nil hne
        exact ⟨b, l, hc, .inl (hall b (by simp [hc]))⟩
      · refine ⟨c.bytes.dropLast, c.bytes.getLast hne, (List.dropLast_concat_getLast hne).symm, ?_⟩
        exact .inl (hall _ (List.getLast_mem hne))
  | single =>
      rw [Chunk.write_single hs]
      exact ⟨⟨_, _, rfl, .inr (.inl rfl)⟩, ⟨_ :: c.bytes, _, rfl, .inr (.inl rfl)⟩⟩
  | double =>
      rw [Chunk.write_double hs]
      exact ⟨⟨_, _, rfl, .inr (.inr rfl)⟩, ⟨_ :: _, _, rfl, .inr (.inr rfl)⟩⟩

/-- A word without a NUL is written by its chunks, or as a pair of marks if it is empty. -/
theorem quote_eq {w : Bytes} (h : 0 ∉ w) :
    quote w = if w = [] then ['\''.toUInt8, '\''.toUInt8] else (chunks w).flatMap Chunk.write := by
  rw [quote, if_neg h]
  simp [List.isEmpty_iff]

theorem quote_first {w : Bytes} (h : 0 ∉ w) : ∃ b l, quote w = b :: l ∧ IsEdge b := by
  rw [quote_eq h]
  split
  · exact ⟨_, _, rfl, .inr (.inl rfl)⟩
  · rename_i hw
    obtain ⟨c, cs, hcs⟩ := List.exists_cons_of_ne_nil (chunks_ne_nil hw)
    have hfit : c.Fits := chunks_fit w c (by simp [hcs])
    obtain ⟨⟨b, l, hb, hedge⟩, _⟩ := hfit.write_edges
    exact ⟨b, l ++ cs.flatMap Chunk.write, by rw [hcs, List.flatMap_cons, hb]; rfl, hedge⟩

theorem quote_last {w : Bytes} (h : 0 ∉ w) : ∃ l b, quote w = l ++ [b] ∧ IsEdge b := by
  rw [quote_eq h]
  split
  · exact ⟨['\''.toUInt8], _, rfl, .inr (.inl rfl)⟩
  · rename_i hw
    obtain ⟨cs, c, hcs⟩ := List.eq_nil_or_concat (chunks w) |>.resolve_left (chunks_ne_nil hw)
    have hfit : c.Fits := chunks_fit w c (by simp [hcs])
    obtain ⟨_, l, b, hb, hedge⟩ := hfit.write_edges
    refine ⟨cs.flatMap Chunk.write ++ l, b, ?_, hedge⟩
    rw [hcs, List.concat_eq_append, List.flatMap_append, List.flatMap_singleton, hb,
      List.append_assoc]

/-! ## Command lines -/

@[simp] theorem commandLine_singleton (w : Bytes) : commandLine [w] = quote w := by
  simp [commandLine, List.intercalate]

@[simp] theorem commandLine_cons_cons (w v : Bytes) (ws : List Bytes) :
    commandLine (w :: v :: ws) = quote w ++ ' '.toUInt8 :: commandLine (v :: ws) := by
  simp [commandLine, List.intercalate]

/-- What holds of spaces and of quoted words, and of two lines side by side, holds of lines. -/
theorem commandLine_induction {p : Bytes → Prop} (nil : p []) (space : p [' '.toUInt8])
    (append : ∀ {l m}, p l → p m → p (l ++ m)) {ws : List Bytes} (h : ∀ w ∈ ws, p (quote w)) :
    p (commandLine ws) := by
  induction ws with
  | nil => exact nil
  | cons w ws ih =>
      have hw : p (quote w) := h w List.mem_cons_self
      cases ws with
      | nil =>
          rw [commandLine_singleton]
          exact hw
      | cons v ws =>
          rw [commandLine_cons_cons]
          exact append hw (append space (ih (fun x hx => h x (List.mem_cons_of_mem w hx))))

theorem commandLine_first {w : Bytes} {ws : List Bytes} (h : ∀ v ∈ w :: ws, 0 ∉ v) :
    ∃ b l, commandLine (w :: ws) = b :: l ∧ IsEdge b := by
  obtain ⟨b, l, hb, hedge⟩ := quote_first (h w List.mem_cons_self)
  cases ws with
  | nil =>
      rw [commandLine_singleton]
      exact ⟨b, l, hb, hedge⟩
  | cons v ws =>
      rw [commandLine_cons_cons, hb]
      exact ⟨b, _, rfl, hedge⟩

theorem commandLine_last {w : Bytes} {ws : List Bytes} (h : ∀ v ∈ w :: ws, 0 ∉ v) :
    ∃ l b, commandLine (w :: ws) = l ++ [b] ∧ IsEdge b := by
  induction ws generalizing w with
  | nil =>
      rw [commandLine_singleton]
      exact quote_last (h w List.mem_cons_self)
  | cons v ws ih =>
      obtain ⟨l, b, hb, hedge⟩ := ih (fun x hx => h x (List.mem_cons_of_mem w hx))
      refine ⟨quote w ++ ' '.toUInt8 :: l, b, ?_, hedge⟩
      rw [commandLine_cons_cons, hb, List.append_assoc, List.cons_append]

end LastMatch.Words
