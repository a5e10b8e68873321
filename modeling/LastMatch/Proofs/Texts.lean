import LastMatch.Text.Utf8

/-!
# Bytes that are a text

A byte string is a text if it is the UTF-8 form of some characters. A character in ASCII has one
byte, with the same number; every other character has several, all of them outside ASCII. That is
all that the rest of the development knows of the encoding.
-/

namespace LastMatch.Utf8

/-! ## Characters -/

theorem utf8EncodeChar_of_lt {c : Char} (h : c.toNat < 0x80) :
    String.utf8EncodeChar c = [c.toUInt8] := by
  have hv : c.val.toNat ≤ 0x7F := Nat.le_of_lt_succ h
  rw [String.utf8EncodeChar, if_pos hv]
  rfl

/-- A character outside ASCII has no byte in ASCII. -/
theorem le_of_mem_utf8EncodeChar {c : Char} (h : 0x80 ≤ c.toNat) :
    ∀ b ∈ String.utf8EncodeChar c, 0x80 ≤ b := by
  have hv : ¬ c.val.toNat ≤ 0x7F := Nat.not_le_of_lt h
  have high : ∀ n : Nat, 0x80 ≤ n % 256 → 0x80 ≤ UInt8.ofNat n := by
    intro n hn
    rw [UInt8.le_iff_toNat_le, UInt8.toNat_ofNat']
    exact hn
  intro b hb
  rw [String.utf8EncodeChar, if_neg hv] at hb
  split at hb
  · simp only [List.mem_cons, List.not_mem_nil, or_false] at hb
    rcases hb with rfl | rfl <;> exact high _ (by omega)
  · split at hb
    · simp only [List.mem_cons, List.not_mem_nil, or_false] at hb
      rcases hb with rfl | rfl | rfl <;> exact high _ (by omega)
    · simp only [List.mem_cons, List.not_mem_nil, or_false] at hb
      rcases hb with rfl | rfl | rfl | rfl <;> exact high _ (by omega)

/-! ## Lists of characters -/

@[simp] theorem encodeChars_nil : encodeChars [] = [] := rfl

@[simp] theorem encodeChars_cons (c : Char) (cs : List Char) :
    encodeChars (c :: cs) = String.utf8EncodeChar c ++ encodeChars cs := rfl

@[simp] theorem encodeChars_append (cs ds : List Char) :
    encodeChars (cs ++ ds) = encodeChars cs ++ encodeChars ds :=
  List.flatMap_append

theorem encodeChars_eq_nil_iff (cs : List Char) : encodeChars cs = [] ↔ cs = [] := by
  cases cs <;> simp

@[simp] theorem encode_ofList (cs : List Char) : encode (String.ofList cs) = encodeChars cs := by
  rw [encode, String.toList_ofList]

theorem encode_append (s t : String) : encode (s ++ t) = encode s ++ encode t := by
  rw [encode, String.toList_append, encodeChars_append, encode, encode]

theorem encode_injective {s t : String} (h : encode s = encode t) : s = t := by
  have hs := decode?_encode s
  rw [h, decode?_encode] at hs
  exact (Option.some.inj hs).symm

@[simp] theorem encode_eq_nil_iff (s : String) : encode s = [] ↔ s = "" :=
  ⟨fun h => encode_injective h, fun h => h ▸ rfl⟩

theorem ofUInt8_toUInt8 {c : Char} (h : c.toNat < 0x80) : Char.ofUInt8 c.toUInt8 = c := by
  apply Char.toNat_inj.mp
  show c.toNat % 256 = c.toNat
  omega

@[simp] theorem toUInt8_ofUInt8 (b : UInt8) : (Char.ofUInt8 b).toUInt8 = b := by
  apply UInt8.toNat_inj.mp
  show b.toNat % 256 = b.toNat
  rw [Nat.mod_eq_of_lt b.toNat_lt]

/-- A first byte in ASCII is the first character. -/
theorem eq_cons_of_encodeChars {cs : List Char} {b : UInt8} {bs : Bytes} (hb : b < 0x80)
    (h : encodeChars cs = b :: bs) : ∃ ds, cs = Char.ofUInt8 b :: ds := by
  cases cs with
  | nil => cases h
  | cons c cs =>
      rw [encodeChars_cons] at h
      rcases Nat.lt_or_ge c.toNat 0x80 with hc | hc
      · rw [utf8EncodeChar_of_lt hc] at h
        rw [← (List.cons.inj h).1, ofUInt8_toUInt8 hc]
        exact ⟨cs, rfl⟩
      · obtain ⟨a, l, ha⟩ := List.exists_cons_of_ne_nil (String.utf8EncodeChar_ne_nil (c := c))
        rw [ha] at h
        have hle := le_of_mem_utf8EncodeChar hc a (by simp [ha])
        rw [(List.cons.inj h).1] at hle
        exact absurd hb (UInt8.not_lt.mpr hle)

/-- A last byte in ASCII is the last character. -/
theorem eq_concat_of_encodeChars {cs : List Char} {b : UInt8} {bs : Bytes} (hb : b < 0x80)
    (h : encodeChars cs = bs ++ [b]) : ∃ ds, cs = ds ++ [Char.ofUInt8 b] := by
  rcases List.eq_nil_or_concat cs with rfl | ⟨ds, c, rfl⟩
  · simp at h
  · rw [List.concat_eq_append, encodeChars_append, encodeChars_cons, encodeChars_nil,
      List.append_nil] at h
    rcases Nat.lt_or_ge c.toNat 0x80 with hc | hc
    · rw [utf8EncodeChar_of_lt hc] at h
      have hcb : c.toUInt8 = b := (List.cons.inj (List.append_inj_right' h rfl)).1
      rw [← hcb, ofUInt8_toUInt8 hc]
      exact ⟨ds, List.concat_eq_append⟩
    · obtain ⟨l, a, ha⟩ := (List.eq_nil_or_concat (String.utf8EncodeChar c)).resolve_left
        String.utf8EncodeChar_ne_nil
      rw [ha, List.concat_eq_append, ← List.append_assoc] at h
      have hab : a = b := (List.cons.inj (List.append_inj_right' h rfl)).1
      have hle := le_of_mem_utf8EncodeChar hc a (by simp [ha])
      rw [hab] at hle
      exact absurd hb (UInt8.not_lt.mpr hle)

/-! ## Texts -/

/-- The bytes of some characters. -/
def IsText (bs : Bytes) : Prop := ∃ cs, bs = encodeChars cs

theorem isText_iff (bs : Bytes) : IsText bs ↔ ∃ s, decode? bs = some s := by
  constructor
  · rintro ⟨cs, rfl⟩
    exact ⟨String.ofList cs, decode?_eq_some_iff.mpr (encode_ofList cs).symm⟩
  · rintro ⟨s, hs⟩
    exact ⟨s.toList, decode?_eq_some_iff.mp hs⟩

theorem isText_encode (s : String) : IsText (encode s) := ⟨s.toList, rfl⟩

theorem IsText.append {a b : Bytes} (ha : IsText a) (hb : IsText b) : IsText (a ++ b) := by
  obtain ⟨cs, rfl⟩ := ha
  obtain ⟨ds, rfl⟩ := hb
  exact ⟨cs ++ ds, (encodeChars_append cs ds).symm⟩

/-- A byte in ASCII is a text by itself. -/
theorem isText_singleton {b : UInt8} (hb : b < 0x80) : IsText [b] := by
  have hn : (Char.ofUInt8 b).toNat < 0x80 := hb
  refine ⟨[Char.ofUInt8 b], ?_⟩
  rw [encodeChars_cons, encodeChars_nil, List.append_nil, utf8EncodeChar_of_lt hn, toUInt8_ofUInt8]

/-- Lists of texts are read back without loss. -/
theorem exists_map_encode {ws : List Bytes} (h : ∀ w ∈ ws, IsText w) :
    ∃ vs : List String, ws = vs.map encode := by
  induction ws with
  | nil => exact ⟨[], rfl⟩
  | cons w ws ih =>
      obtain ⟨cs, rfl⟩ := h w List.mem_cons_self
      obtain ⟨vs, rfl⟩ := ih (fun x hx => h x (List.mem_cons_of_mem _ hx))
      exact ⟨String.ofList cs :: vs, by simp⟩

end LastMatch.Utf8

namespace LastMatch

/-! ## Bytes cut at the first of a kind -/

variable {a : UInt8} {l r : Bytes}

theorem takeWhile_ne_append (h : a ∉ l) : (l ++ a :: r).takeWhile (· ≠ a) = l := by
  rw [List.takeWhile_append_of_pos fun b hb => decide_eq_true (ne_of_mem_of_not_mem hb h)]
  simp

theorem dropWhile_ne_append (h : a ∉ l) : (l ++ a :: r).dropWhile (· ≠ a) = a :: r := by
  rw [List.dropWhile_append_of_pos fun b hb => decide_eq_true (ne_of_mem_of_not_mem hb h)]
  simp

theorem dropWhile_ne_of_not_mem (h : a ∉ l) : l.dropWhile (· ≠ a) = [] := by
  rw [← List.append_nil l,
    List.dropWhile_append_of_pos fun b hb => decide_eq_true (ne_of_mem_of_not_mem hb h)]
  rfl

end LastMatch
