import LastMatch.Proofs.Texts
import LastMatch.Words.Quote
import LastMatch.Words.Split

/-!
# The part that each byte plays

Both directions of a command line look at bytes one at a time: the splitter at their `Symbol`, the
cut of a word at the styles that hold them. This module relates the two.

* The special bytes of the splitter, each with the bytes that it comes from (`Symbol.bytes`).
* What each style of quoting keeps out: a style never holds a byte that would end it or be taken
  for something else in it.
-/

namespace LastMatch.Words

/-- A statement about all bytes follows from its 256 cases. -/
theorem forall_byte {p : UInt8 → Prop} (h : ∀ n : Fin 256, p (UInt8.ofFin n)) : ∀ b, p b :=
  fun b => h b.toFin

/-! ## Symbols -/

namespace Symbol

@[simp] theorem ofByte_space : ofByte ' '.toUInt8 = .blank := rfl

@[simp] theorem ofByte_backslash : ofByte '\\'.toUInt8 = .backslash := rfl

@[simp] theorem ofByte_apostrophe : ofByte '\''.toUInt8 = .apostrophe := rfl

@[simp] theorem ofByte_quote : ofByte '"'.toUInt8 = .quote := rfl

/-- The bytes that play a special part. -/
def bytes : Symbol → Bytes
  | .blank => [' '.toUInt8, '\t'.toUInt8]
  | .newline => ['\n'.toUInt8]
  | .hash => ['#'.toUInt8]
  | .backslash => ['\\'.toUInt8]
  | .apostrophe => ['\''.toUInt8]
  | .quote => ['"'.toUInt8]
  | .dollar => ['$'.toUInt8, '`'.toUInt8]
  | .plain => []

theorem ofByte_of_mem_bytes {k : Symbol} {b : UInt8} (h : b ∈ k.bytes) : ofByte b = k := by
  have hall : k.bytes.all (ofByte · = k) = true := by cases k <;> decide
  exact of_decide_eq_true (List.all_eq_true.mp hall b h)

theorem mem_bytes_ofByte {b : UInt8} (h : ofByte b ≠ .plain) : b ∈ (ofByte b).bytes := by
  obtain ⟨n, hn⟩ : ∃ n, b.toNat = n := ⟨_, rfl⟩
  have hb : b = UInt8.ofNat n := by rw [← hn, UInt8.ofNat_toNat]
  rw [ofByte, hn] at h ⊢
  subst hb
  unfold ofCode at h ⊢
  split at h <;> first | contradiction | decide

theorem ofByte_eq_iff {k : Symbol} (hk : k ≠ .plain) (b : UInt8) : ofByte b = k ↔ b ∈ k.bytes := by
  constructor
  · rintro rfl
    exact mem_bytes_ofByte hk
  · exact ofByte_of_mem_bytes

theorem ofByte_eq_blank_iff (b : UInt8) :
    ofByte b = .blank ↔ b = ' '.toUInt8 ∨ b = '\t'.toUInt8 := by
  simp [ofByte_eq_iff, bytes]

theorem ofByte_eq_newline_iff (b : UInt8) : ofByte b = .newline ↔ b = '\n'.toUInt8 := by
  simp [ofByte_eq_iff, bytes]

theorem ofByte_eq_hash_iff (b : UInt8) : ofByte b = .hash ↔ b = '#'.toUInt8 := by
  simp [ofByte_eq_iff, bytes]

theorem ofByte_eq_backslash_iff (b : UInt8) : ofByte b = .backslash ↔ b = '\\'.toUInt8 := by
  simp [ofByte_eq_iff, bytes]

theorem ofByte_eq_apostrophe_iff (b : UInt8) : ofByte b = .apostrophe ↔ b = '\''.toUInt8 := by
  simp [ofByte_eq_iff, bytes]

theorem ofByte_eq_quote_iff (b : UInt8) : ofByte b = .quote ↔ b = '"'.toUInt8 := by
  simp [ofByte_eq_iff, bytes]

theorem ofByte_eq_dollar_iff (b : UInt8) :
    ofByte b = .dollar ↔ b = '$'.toUInt8 ∨ b = '`'.toUInt8 := by
  simp [ofByte_eq_iff, bytes]

theorem isGuarded_eq_true_iff (k : Symbol) :
    k.isGuarded = true ↔ k = .dollar ∨ k = .quote ∨ k = .backslash := by
  cases k <;> decide

end Symbol

/-! ## Styles -/

namespace Style

/-- No byte that is special to the splitter stands unquoted. -/
theorem holds_unquoted_of_mem_bytes {k : Symbol} {b : UInt8} (h : b ∈ k.bytes) :
    Style.unquoted.holds b = false := by
  have hall : k.bytes.all (Style.unquoted.holds · = false) = true := by cases k <;> decide
  exact of_decide_eq_true (List.all_eq_true.mp hall b h)

theorem ofByte_of_holds_unquoted {b : UInt8} (h : Style.unquoted.holds b = true) :
    Symbol.ofByte b = .plain := by
  by_cases hk : Symbol.ofByte b = .plain
  · exact hk
  · have hspecial := holds_unquoted_of_mem_bytes (Symbol.mem_bytes_ofByte hk)
    rw [h] at hspecial
    cases hspecial

theorem holds_single_of_holds_unquoted {b : UInt8} (h : Style.unquoted.holds b = true) :
    Style.single.holds b = true := by
  unfold holds at h ⊢
  generalize Char.ofUInt8 b = c at h ⊢
  have hkept : c ∉ ['\'', '^', '\\'] := by
    intro hc
    simp only [List.mem_cons, List.not_mem_nil, or_false] at hc
    rcases hc with rfl | rfl | rfl <;> exact absurd h (by decide)
  exact decide_eq_true hkept

theorem ne_of_holds_single {b : UInt8} (h : Style.single.holds b = true) :
    b ≠ '\''.toUInt8 ∧ b ≠ '\\'.toUInt8 ∧ b ≠ '^'.toUInt8 := by
  refine ⟨?_, ?_, ?_⟩ <;> rintro rfl <;> exact absurd h (by decide)

theorem ne_of_holds_double {b : UInt8} (h : Style.double.holds b = true) :
    b ≠ '$'.toUInt8 ∧ b ≠ '`'.toUInt8 ∧ b ≠ '!'.toUInt8 ∧ b ≠ '^'.toUInt8 := by
  refine ⟨?_, ?_, ?_, ?_⟩ <;> rintro rfl <;> exact absurd h (by decide)

theorem ofUInt8_not_mem {b : UInt8} (hb : 0x80 ≤ b) {cs : List Char}
    (hcs : cs.all (·.toNat < 0x80) = true) : Char.ofUInt8 b ∉ cs := by
  intro hmem
  have hlt : b.toNat < 0x80 := of_decide_eq_true (List.all_eq_true.mp hcs _ hmem)
  have hle : 0x80 ≤ b.toNat := UInt8.le_iff_toNat_le.mp hb
  omega

/-- Bytes outside ASCII stand in both styles of quotation marks. -/
theorem holds_of_le {b : UInt8} (hb : 0x80 ≤ b) :
    Style.single.holds b = true ∧ Style.double.holds b = true :=
  ⟨decide_eq_true (ofUInt8_not_mem hb (by decide)),
    decide_eq_true (ofUInt8_not_mem hb (by decide))⟩

/-- Only three bytes may not stand in single quotes. -/
theorem eq_of_not_holds_single {b : UInt8} (h : Style.single.holds b = false) :
    b = '\''.toUInt8 ∨ b = '^'.toUInt8 ∨ b = '\\'.toUInt8 := by
  unfold holds at h
  rw [← Utf8.toUInt8_ofUInt8 b]
  generalize Char.ofUInt8 b = c at h ⊢
  have hc : c ∈ ['\'', '^', '\\'] := Decidable.not_not.mp (of_decide_eq_false h)
  simp only [List.mem_cons, List.not_mem_nil, or_false] at hc
  rcases hc with rfl | rfl | rfl <;> decide

/-- Every byte can open a chunk in some style. -/
theorem opening_ne_nil (b : UInt8) : opening b ≠ [] := by
  unfold opening
  split
  · exact List.cons_ne_nil _ _
  · rename_i hb
    intro hnil
    have hall := List.filter_eq_nil_iff.mp hnil
    have hsingle : Style.single.holds b = false := by simpa using hall .single (by decide)
    have hdouble : Style.double.holds b = false := by simpa using hall .double (by decide)
    rcases eq_of_not_holds_single hsingle with rfl | rfl | rfl
    · exact absurd hdouble (by decide)
    · exact hb rfl
    · exact absurd hdouble (by decide)

/-- A byte opens a chunk only in a style that holds it, a circumflex in single quotes apart. -/
theorem holds_of_mem_opening {b : UInt8} {s : Style} (h : s ∈ opening b) :
    s.holds b = true ∨ b = '^'.toUInt8 ∧ s = .single := by
  unfold opening at h
  split at h
  · rename_i hb
    exact .inr ⟨hb, List.mem_singleton.mp h⟩
  · exact .inl (List.mem_filter.mp h).2

/-- Where a chunk can open unquoted, it can open in single quotes as well. -/
theorem single_mem_opening {b : UInt8} (h : Style.unquoted ∈ opening b) :
    Style.single ∈ opening b := by
  unfold opening at h ⊢
  split at h
  · cases List.mem_singleton.mp h
  · rename_i hb
    have hheld : Style.unquoted.holds b = true := (List.mem_filter.mp h).2
    rw [if_neg hb]
    exact List.mem_filter.mpr ⟨by decide, holds_single_of_holds_unquoted hheld⟩

end Style

end LastMatch.Words
