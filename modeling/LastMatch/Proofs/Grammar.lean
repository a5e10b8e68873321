import LastMatch.Proofs.Letters
import LastMatch.Proofs.Steps

/-!
# The grammar of command lines

What a command line means, said without a scanner. A line is a sequence of gaps and words; a word is
a sequence of pieces, each of which has some bytes and denotes some.

* `Piece` relates a piece of a word to the bytes that it denotes, `Word` a whole word.
* `Gap` are the bytes between words: separators, and comments with the newline that ends them.
* `Derives` relates a line to its words.

The splitter is exact for the grammar (`derives_iff_split`): `Derives.finish_run` reads a derivation
off as a run, and `rest_of_finish` turns a run into a derivation, with what is still to be derived
from each place of the splitter as its invariant.
-/

namespace LastMatch.Words

open Splitter

/-! ## The grammar -/

/-- The bytes that end a word. -/
def IsSeparator (b : UInt8) : Prop := b = ' '.toUInt8 ∨ b = '\t'.toUInt8 ∨ b = '\n'.toUInt8

/-- The bytes that a backslash between double quotation marks can quote. -/
def IsGuarded (b : UInt8) : Prop :=
  b = '$'.toUInt8 ∨ b = '`'.toUInt8 ∨ b = '"'.toUInt8 ∨ b = '\\'.toUInt8

/-- The bytes between two double quotation marks, and what they denote. -/
inductive Enclosed : Bytes → Bytes → Prop where
  | nil : Enclosed [] []
  | plain {b : UInt8} {t v : Bytes} : b ≠ '"'.toUInt8 → b ≠ '\\'.toUInt8 → Enclosed t v →
      Enclosed (b :: t) (b :: v)
  | guarded {b : UInt8} {t v : Bytes} : IsGuarded b → Enclosed t v →
      Enclosed ('\\'.toUInt8 :: b :: t) (b :: v)
  | joined {t v : Bytes} : Enclosed t v → Enclosed ('\\'.toUInt8 :: '\n'.toUInt8 :: t) v
  | kept {b : UInt8} {t v : Bytes} : ¬ IsGuarded b → b ≠ '\n'.toUInt8 → Enclosed t v →
      Enclosed ('\\'.toUInt8 :: b :: t) ('\\'.toUInt8 :: b :: v)

/-- A piece of a word, and what it denotes. -/
inductive Piece : Bytes → Bytes → Prop where
  | ordinary {b : UInt8} : ¬ IsSeparator b → b ≠ '\\'.toUInt8 → b ≠ '\''.toUInt8 →
      b ≠ '"'.toUInt8 → Piece [b] [b]
  | escaped {b : UInt8} : b ≠ '\n'.toUInt8 → Piece ['\\'.toUInt8, b] [b]
  | joined : Piece ['\\'.toUInt8, '\n'.toUInt8] []
  | single {t : Bytes} : '\''.toUInt8 ∉ t → Piece ('\''.toUInt8 :: (t ++ ['\''.toUInt8])) t
  | double {t v : Bytes} : Enclosed t v → Piece ('"'.toUInt8 :: (t ++ ['"'.toUInt8])) v

/-- Some pieces, one after another. -/
inductive Pieces : Bytes → Bytes → Prop where
  | nil : Pieces [] []
  | cons {t v t' v' : Bytes} : Piece t v → Pieces t' v' → Pieces (t ++ t') (v ++ v')

/-- A word has at least one piece, and its first byte is not `#`. -/
inductive Word : Bytes → Bytes → Prop where
  | mk {t v t' v' : Bytes} : Piece t v → t.head? ≠ some '#'.toUInt8 → Pieces t' v' →
      Word (t ++ t') (v ++ v')

/-- The bytes before a word: separators, and comments that end with a newline. -/
inductive Gap : Bytes → Prop where
  | nil : Gap []
  | separator {b : UInt8} {g : Bytes} : IsSeparator b → Gap g → Gap (b :: g)
  | comment {t g : Bytes} : '\n'.toUInt8 ∉ t → Gap g →
      Gap ('#'.toUInt8 :: (t ++ '\n'.toUInt8 :: g))

/-- A line, and its words. After a word the line goes on with a separator, if it goes on. -/
inductive Derives : Bytes → List Bytes → Prop where
  | gap {g : Bytes} : Gap g → Derives g []
  | comment {g t : Bytes} : Gap g → '\n'.toUInt8 ∉ t → Derives (g ++ '#'.toUInt8 :: t) []
  | last {g t v : Bytes} : Gap g → Word t v → Derives (g ++ t) [v]
  | next {g t v r : Bytes} {b : UInt8} {ws : List Bytes} : Gap g → Word t v → IsSeparator b →
      Derives r ws → Derives (g ++ (t ++ b :: r)) (v :: ws)

/-! ## Bytes and symbols -/

theorem isSeparator_iff (b : UInt8) :
    IsSeparator b ↔ Symbol.ofByte b = .blank ∨ Symbol.ofByte b = .newline := by
  rw [Symbol.ofByte_eq_blank_iff, Symbol.ofByte_eq_newline_iff, IsSeparator, or_assoc]

theorem isGuarded_iff (b : UInt8) : IsGuarded b ↔ (Symbol.ofByte b).isGuarded = true := by
  rw [Symbol.isGuarded_eq_true_iff, Symbol.ofByte_eq_dollar_iff, Symbol.ofByte_eq_quote_iff,
    Symbol.ofByte_eq_backslash_iff, IsGuarded, or_assoc]

theorem ofByte_ne_newline {t : Bytes} (h : '\n'.toUInt8 ∉ t) :
    ∀ b ∈ t, Symbol.ofByte b ≠ .newline := by
  intro b hb
  rw [ne_eq, Symbol.ofByte_eq_newline_iff]
  rintro rfl
  exact h hb

theorem ofByte_ne_apostrophe {t : Bytes} (h : '\''.toUInt8 ∉ t) :
    ∀ b ∈ t, Symbol.ofByte b ≠ .apostrophe := by
  intro b hb
  rw [ne_eq, Symbol.ofByte_eq_apostrophe_iff]
  rintro rfl
  exact h hb

/-! ## Derivations as runs -/

variable {c : List Bytes}

theorem Enclosed.run {t v : Bytes} (h : Enclosed t v) (w : Bytes) :
    Splitter.run Symbol.ofByte ⟨.double w, c⟩ t = ⟨.double (v.reverse ++ w), c⟩ := by
  induction h generalizing w with
  | nil => rfl
  | @plain b t v hq hb _ ih =>
      rw [ne_eq, ← Symbol.ofByte_eq_quote_iff] at hq
      rw [ne_eq, ← Symbol.ofByte_eq_backslash_iff] at hb
      rw [run_cons, step_double hq hb, ih]
      simp
  | @guarded b t v hb _ ih =>
      rw [run_cons, run_cons, step_double_backslash rfl,
        step_doubleEscaped_guarded ((isGuarded_iff b).mp hb), ih]
      simp
  | joined _ ih =>
      rw [run_cons, run_cons, step_double_backslash rfl, step_doubleEscaped_newline rfl, ih]
  | @kept b t v hb hn _ ih =>
      rw [isGuarded_iff, Bool.not_eq_true] at hb
      rw [ne_eq, ← Symbol.ofByte_eq_newline_iff] at hn
      rw [run_cons, run_cons, step_double_backslash rfl, step_doubleEscaped hn hb, ih]
      simp

theorem Piece.run {t v : Bytes} (h : Piece t v) (w : Bytes) :
    Splitter.run Symbol.ofByte ⟨.word w, c⟩ t = ⟨.word (v.reverse ++ w), c⟩ := by
  cases h with
  | ordinary hs hb hq hd =>
      rw [isSeparator_iff] at hs
      rw [ne_eq, ← Symbol.ofByte_eq_backslash_iff] at hb
      rw [ne_eq, ← Symbol.ofByte_eq_apostrophe_iff] at hq
      rw [ne_eq, ← Symbol.ofByte_eq_quote_iff] at hd
      rw [run_cons, run_nil, step_word hs, inWord_of_ne hb hq hd]
      rfl
  | escaped hn =>
      rw [ne_eq, ← Symbol.ofByte_eq_newline_iff] at hn
      rw [run_cons, run_cons, run_nil, step_word (by simp), inWord_backslash rfl, step_escaped hn]
      rfl
  | joined =>
      rw [run_cons, run_cons, run_nil, step_word (by simp), inWord_backslash rfl,
        step_escaped_newline rfl]
      rfl
  | single ht =>
      rw [run_cons, step_word (by simp), inWord_apostrophe rfl, run_append,
        run_single (ofByte_ne_apostrophe ht), run_cons, step_single_apostrophe rfl, run_nil]
  | double he =>
      rw [run_cons, step_word (by simp), inWord_quote rfl, run_append, he.run, run_cons,
        step_double_quote rfl, run_nil]

theorem Pieces.run {t v : Bytes} (h : Pieces t v) (w : Bytes) :
    Splitter.run Symbol.ofByte ⟨.word w, c⟩ t = ⟨.word (v.reverse ++ w), c⟩ := by
  induction h generalizing w with
  | nil => rfl
  | cons hp _ ih =>
      rw [run_append, hp.run, ih]
      simp

/-- A piece is never empty, and no separator begins it. -/
theorem Piece.exists_cons {t v : Bytes} (h : Piece t v) :
    ∃ b r, t = b :: r ∧ ¬ IsSeparator b := by
  cases h with
  | ordinary hs _ _ _ => exact ⟨_, _, rfl, hs⟩
  | escaped _ | joined | single _ | double _ =>
      refine ⟨_, _, rfl, ?_⟩
      rw [isSeparator_iff]
      simp

theorem Word.run {t v : Bytes} (h : Word t v) :
    Splitter.run Symbol.ofByte ⟨.gap, c⟩ t = ⟨.word v.reverse, c⟩ := by
  obtain ⟨hp, hhash, hps⟩ := h
  rename_i t v t' v'
  obtain ⟨b, r, rfl, hs⟩ := hp.exists_cons
  have hb : Symbol.ofByte b ≠ .hash := by
    rw [ne_eq, Symbol.ofByte_eq_hash_iff]
    rintro rfl
    exact hhash rfl
  rw [isSeparator_iff] at hs
  -- the first byte is read as in a word that has just begun
  have hstart : Splitter.run Symbol.ofByte ⟨.gap, c⟩ (b :: r)
      = Splitter.run Symbol.ofByte ⟨.word [], c⟩ (b :: r) := by
    rw [run_cons, run_cons, step_gap hs hb, step_word hs]
  rw [run_append, hstart, hp.run, hps.run]
  simp

theorem Gap.run {g : Bytes} (h : Gap g) : Splitter.run Symbol.ofByte ⟨.gap, c⟩ g = ⟨.gap, c⟩ := by
  induction h with
  | nil => rfl
  | separator hs _ ih => rw [run_cons, step_gap_separator ((isSeparator_iff _).mp hs), ih]
  | @comment t g ht _ ih =>
      rw [run_cons, step_gap_hash rfl, run_append, run_comment (ofByte_ne_newline ht), run_cons,
        step_comment_newline rfl, ih]

/-- The splitter finds the words that are derived. -/
theorem Derives.finish_run {t : Bytes} {ws : List Bytes} (h : Derives t ws) (c : List Bytes) :
    (Splitter.run Symbol.ofByte ⟨.gap, c⟩ t).finish = some (c.reverse ++ ws) := by
  induction h generalizing c with
  | gap hg =>
      rw [hg.run]
      simp [finish]
  | @comment g t hg ht =>
      rw [run_append, hg.run, run_cons, step_gap_hash rfl, run_comment (ofByte_ne_newline ht)]
      simp [finish]
  | last hg hw =>
      rw [run_append, hg.run, hw.run]
      simp [finish]
  | next hg hw hs _ ih =>
      rw [run_append, hg.run, run_append, hw.run, run_cons,
        step_word_separator ((isSeparator_iff _).mp hs), ih]
      simp

/-! ## Runs as derivations -/

/-- What may follow in a word that has gathered `w`, last byte first: some more pieces, and then the
end of the line or a separator and the other words. -/
inductive WordRest (w : Bytes) : Bytes → List Bytes → Prop where
  | stop {t v : Bytes} : Pieces t v → WordRest w t [w.reverse ++ v]
  | next {t v r : Bytes} {b : UInt8} {ws : List Bytes} : Pieces t v → IsSeparator b →
      Derives r ws → WordRest w (t ++ b :: r) ((w.reverse ++ v) :: ws)

theorem WordRest.piece {w t v r : Bytes} {ws : List Bytes} (hp : Piece t v)
    (h : WordRest (v.reverse ++ w) r ws) : WordRest w (t ++ r) ws := by
  have hrev : ∀ v', (v.reverse ++ w).reverse ++ v' = w.reverse ++ (v ++ v') := by simp
  cases h with
  | stop hps =>
      rw [hrev]
      exact .stop (.cons hp hps)
  | next hps hs hd =>
      rw [hrev, ← List.append_assoc]
      exact .next (.cons hp hps) hs hd

/-- A byte that can start a word begins it, and with it the words of the line. -/
theorem WordRest.derives {b : UInt8} {t : Bytes} {ws : List Bytes} (hs : ¬ IsSeparator b)
    (hhash : b ≠ '#'.toUInt8) (h : WordRest [] (b :: t) ws) : Derives (b :: t) ws := by
  have word : ∀ {u v}, Pieces u v → u.head? = some b → Word u v := by
    intro u v hps hu
    cases hps with
    | nil => cases hu
    | cons hp hps =>
        obtain ⟨x, r, rfl, _⟩ := hp.exists_cons
        obtain rfl : x = b := Option.some.inj hu
        exact .mk hp (by simpa using hhash) hps
  generalize ht : b :: t = t' at h
  cases h with
  | stop hps => exact .last .nil (word hps (by rw [← ht]; rfl))
  | @next u v r x ws hps hx hd =>
      cases u with
      | nil =>
          obtain ⟨rfl, rfl⟩ := List.cons.inj ht
          exact absurd hx hs
      | cons a u =>
          obtain ⟨rfl, rfl⟩ := List.cons.inj ht
          exact .next .nil (word hps rfl) hx hd

theorem Derives.separator {b : UInt8} {t : Bytes} {ws : List Bytes} (hs : IsSeparator b)
    (h : Derives t ws) : Derives (b :: t) ws := by
  cases h with
  | gap hg => exact .gap (.separator hs hg)
  | comment hg ht => exact .comment (.separator hs hg) ht
  | last hg hw => exact .last (.separator hs hg) hw
  | next hg hw hb hd => exact .next (.separator hs hg) hw hb hd

/-- A comment up to its newline goes before a line. -/
theorem Derives.prependComment {u t : Bytes} {ws : List Bytes} (hu : '\n'.toUInt8 ∉ u)
    (h : Derives t ws) : Derives ('#'.toUInt8 :: (u ++ '\n'.toUInt8 :: t)) ws := by
  cases h with
  | gap hg => exact .gap (.comment hu hg)
  | @comment g t hg ht =>
      rw [← List.cons_append, ← List.cons_append, ← List.append_assoc]
      exact .comment (.comment hu hg) ht
  | @last g t v hg hw =>
      rw [← List.cons_append, ← List.cons_append, ← List.append_assoc]
      exact .last (.comment hu hg) hw
  | @next g t v r b ws hg hw hb hd =>
      rw [← List.cons_append, ← List.cons_append, ← List.append_assoc]
      exact .next (.comment hu hg) hw hb hd

/-- What may follow at each place of the splitter, and the words that are still to come. -/
def Rest : Place UInt8 → Bytes → List Bytes → Prop
  | .gap, t, ws => Derives t ws
  | .comment, t, ws => ∃ u, '\n'.toUInt8 ∉ u ∧
      (t = u ∧ ws = [] ∨ ∃ r, t = u ++ '\n'.toUInt8 :: r ∧ Derives r ws)
  | .word w, t, ws => WordRest w t ws
  | .escaped w, t, ws => WordRest w ('\\'.toUInt8 :: t) ws
  | .single w, t, ws => ∃ u r, '\''.toUInt8 ∉ u ∧ t = u ++ '\''.toUInt8 :: r ∧
      WordRest (u.reverse ++ w) r ws
  | .double w, t, ws => ∃ u v r, Enclosed u v ∧ t = u ++ '"'.toUInt8 :: r ∧
      WordRest (v.reverse ++ w) r ws
  | .doubleEscaped w b, t, ws => ∃ u v r, Enclosed (b :: u) v ∧ t = u ++ '"'.toUInt8 :: r ∧
      WordRest (v.reverse ++ w) r ws

/-- What may follow a byte in a word may follow the word's earlier bytes together with it. -/
theorem rest_inWord {w t : Bytes} {b : UInt8} {ws : List Bytes} (hs : ¬ IsSeparator b)
    (h : Rest (inWord w (Symbol.ofByte b) b) t ws) : WordRest w (b :: t) ws := by
  by_cases hb : b = '\\'.toUInt8
  · subst hb
    exact h
  by_cases hq : b = '\''.toUInt8
  · subst hq
    obtain ⟨u, r, hu, rfl, hr⟩ := h
    rw [show ∀ x : UInt8, x :: (u ++ '\''.toUInt8 :: r) = x :: (u ++ ['\''.toUInt8]) ++ r by simp]
    exact WordRest.piece (.single hu) hr
  by_cases hd : b = '"'.toUInt8
  · subst hd
    obtain ⟨u, v, r, hu, rfl, hr⟩ := h
    rw [show ∀ x : UInt8, x :: (u ++ '"'.toUInt8 :: r) = x :: (u ++ ['"'.toUInt8]) ++ r by simp]
    exact WordRest.piece (.double hu) hr
  · rw [inWord_of_ne (by rwa [ne_eq, Symbol.ofByte_eq_backslash_iff])
      (by rwa [ne_eq, Symbol.ofByte_eq_apostrophe_iff])
      (by rwa [ne_eq, Symbol.ofByte_eq_quote_iff])] at h
    exact WordRest.piece (.ordinary hs hb hq hd) h

theorem rest_hash {t : Bytes} {ws : List Bytes} (h : Rest .comment t ws) :
    Derives ('#'.toUInt8 :: t) ws := by
  obtain ⟨u, hu, ⟨rfl, rfl⟩ | ⟨r, rfl, hr⟩⟩ := h
  · exact .comment .nil hu
  · exact hr.prependComment hu

/-- One byte taken back: what may follow the place that it leads to may, after it, follow the place
before. The words that the step completes are the first of those to come. -/
theorem rest_step {p : Place UInt8} (hp : ∀ w b, p = .doubleEscaped w b → b = '\\'.toUInt8)
    {a : UInt8} {t : Bytes} {ws : List Bytes}
    (h : Rest (step Symbol.ofByte ⟨p, c⟩ a).place t ws) :
    ∃ ws', (step Symbol.ofByte ⟨p, c⟩ a).complete.reverse ++ ws = c.reverse ++ ws' ∧
      Rest p (a :: t) ws' := by
  cases p with
  | gap =>
      by_cases hs : IsSeparator a
      · rw [step_gap_separator ((isSeparator_iff a).mp hs)] at h ⊢
        exact ⟨ws, rfl, Derives.separator hs h⟩
      by_cases hhash : a = '#'.toUInt8
      · subst hhash
        rw [step_gap_hash rfl] at h ⊢
        exact ⟨ws, rfl, rest_hash h⟩
      · rw [step_gap (by rwa [← isSeparator_iff]) (by rwa [ne_eq, Symbol.ofByte_eq_hash_iff])]
          at h ⊢
        exact ⟨ws, rfl, (rest_inWord hs h).derives hs hhash⟩
  | comment =>
      by_cases hn : a = '\n'.toUInt8
      · subst hn
        rw [step_comment_newline rfl] at h ⊢
        exact ⟨ws, rfl, [], by simp, .inr ⟨t, rfl, h⟩⟩
      · rw [step_comment (by rwa [ne_eq, Symbol.ofByte_eq_newline_iff])] at h ⊢
        obtain ⟨u, hu, hrest⟩ := h
        refine ⟨ws, rfl, a :: u, by simp [hu, Ne.symm hn], ?_⟩
        rcases hrest with ⟨rfl, rfl⟩ | ⟨r, rfl, hr⟩
        · exact .inl ⟨rfl, rfl⟩
        · exact .inr ⟨r, rfl, hr⟩
  | word w =>
      by_cases hs : IsSeparator a
      · rw [step_word_separator ((isSeparator_iff a).mp hs)] at h ⊢
        refine ⟨w.reverse :: ws, by simp, ?_⟩
        have hnext := WordRest.next (w := w) .nil hs h
        rwa [List.append_nil] at hnext
      · rw [step_word (by rwa [← isSeparator_iff])] at h ⊢
        exact ⟨ws, rfl, rest_inWord hs h⟩
  | escaped w =>
      by_cases hn : a = '\n'.toUInt8
      · subst hn
        rw [step_escaped_newline rfl] at h ⊢
        exact ⟨ws, rfl, WordRest.piece .joined h⟩
      · rw [step_escaped (by rwa [ne_eq, Symbol.ofByte_eq_newline_iff])] at h ⊢
        exact ⟨ws, rfl, WordRest.piece (.escaped hn) h⟩
  | single w =>
      by_cases hq : a = '\''.toUInt8
      · subst hq
        rw [step_single_apostrophe rfl] at h ⊢
        exact ⟨ws, rfl, [], t, by simp, rfl, h⟩
      · rw [step_single (by rwa [ne_eq, Symbol.ofByte_eq_apostrophe_iff])] at h ⊢
        obtain ⟨u, r, hu, rfl, hr⟩ := h
        exact ⟨ws, rfl, a :: u, r, by simp [hu, Ne.symm hq], rfl, by simpa using hr⟩
  | double w =>
      by_cases hq : a = '"'.toUInt8
      · subst hq
        rw [step_double_quote rfl] at h ⊢
        exact ⟨ws, rfl, [], [], t, .nil, rfl, h⟩
      by_cases hb : a = '\\'.toUInt8
      · subst hb
        rw [step_double_backslash rfl] at h ⊢
        obtain ⟨u, v, r, hu, rfl, hr⟩ := h
        exact ⟨ws, rfl, _ :: u, v, r, hu, rfl, hr⟩
      · rw [step_double (by rwa [ne_eq, Symbol.ofByte_eq_quote_iff])
          (by rwa [ne_eq, Symbol.ofByte_eq_backslash_iff])] at h ⊢
        obtain ⟨u, v, r, hu, rfl, hr⟩ := h
        exact ⟨ws, rfl, a :: u, a :: v, r, .plain hq hb hu, rfl, by simpa using hr⟩
  | doubleEscaped w b =>
      obtain rfl := hp w b rfl
      by_cases hn : a = '\n'.toUInt8
      · subst hn
        rw [step_doubleEscaped_newline rfl] at h ⊢
        obtain ⟨u, v, r, hu, rfl, hr⟩ := h
        exact ⟨ws, rfl, _ :: u, v, r, .joined hu, rfl, hr⟩
      by_cases hg : IsGuarded a
      · rw [step_doubleEscaped_guarded ((isGuarded_iff a).mp hg)] at h ⊢
        obtain ⟨u, v, r, hu, rfl, hr⟩ := h
        exact ⟨ws, rfl, a :: u, a :: v, r, .guarded hg hu, rfl, by simpa using hr⟩
      · rw [step_doubleEscaped (by rwa [ne_eq, Symbol.ofByte_eq_newline_iff])
          (by rwa [← Bool.not_eq_true, ← isGuarded_iff])] at h ⊢
        obtain ⟨u, v, r, hu, rfl, hr⟩ := h
        exact ⟨ws, rfl, a :: u, _ :: a :: v, r, .kept hg hn hu, rfl, by simpa using hr⟩

/-- Only a backslash leads to the place after a backslash. -/
theorem eq_backslash_of_step {p : Place UInt8} {a b : UInt8} {w : Bytes}
    (h : (step Symbol.ofByte ⟨p, c⟩ a).place = .doubleEscaped w b) : b = '\\'.toUInt8 := by
  obtain ⟨rfl, ha⟩ := of_step_doubleEscaped h
  exact (Symbol.ofByte_eq_backslash_iff a).mp ha

/-- A run that ends where a line may end derives the words that it has completed since. -/
theorem rest_of_finish {p : Place UInt8} (hp : ∀ w b, p = .doubleEscaped w b → b = '\\'.toUInt8)
    {t : Bytes} {ws : List Bytes} (h : (Splitter.run Symbol.ofByte ⟨p, c⟩ t).finish = some ws) :
    ∃ ws', ws = c.reverse ++ ws' ∧ Rest p t ws' := by
  induction t generalizing p c with
  | nil =>
      rw [run_nil] at h
      cases p with
      | gap =>
          obtain rfl := Option.some.inj h
          exact ⟨[], (List.append_nil _).symm, .gap .nil⟩
      | comment =>
          obtain rfl := Option.some.inj h
          exact ⟨[], (List.append_nil _).symm, [], by simp, .inl ⟨rfl, rfl⟩⟩
      | word w =>
          obtain rfl := Option.some.inj h
          have hstop := WordRest.stop (w := w) .nil
          rw [List.append_nil] at hstop
          exact ⟨[w.reverse], List.reverse_cons, hstop⟩
      | escaped w | single w | double w | doubleEscaped w b => cases h
  | cons a t ih =>
      rw [run_cons] at h
      obtain ⟨ws', rfl, hrest⟩ := ih (fun w b hb => eq_backslash_of_step hb) h
      exact rest_step hp hrest

/-- **The splitter is exact for the grammar.** -/
theorem derives_iff_split {t : Bytes} {ws : List Bytes} : Derives t ws ↔ split t = some ws := by
  constructor
  · intro h
    exact h.finish_run []
  · intro h
    obtain ⟨ws', rfl, hrest⟩ := rest_of_finish (c := []) (by simp) h
    exact hrest

/-- A line derives at most one list of words. -/
theorem Derives.unique {t : Bytes} {ws ws' : List Bytes} (h : Derives t ws) (h' : Derives t ws') :
    ws = ws' :=
  Option.some.inj ((derives_iff_split.mp h).symm.trans (derives_iff_split.mp h'))

end LastMatch.Words
