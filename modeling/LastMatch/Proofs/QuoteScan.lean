import LastMatch.Proofs.Cutting
import LastMatch.Proofs.Editors

/-!
# Shown command lines under a scan for quotes

A shell acts on a byte according to the quotation in which it meets it. `Context` is a reader that
knows quotation and nothing else; `Context.meets` lists each byte of a line with the context that it
is met in. A shown command line gives such a reader only bytes that mean nothing special where they
stand (`Harmless`), apart from the quotation marks themselves and the spaces between the words.

Written chunks, and the spaces between quoted words, each leave the reader unquoted, so they are
looked at one by one (`Harmless.append`).
-/

namespace LastMatch.Words

/-! ## The scan -/

/-- Where a reader of quotation stands. -/
inductive Context where
  | unquoted
  /-- After a backslash outside quotation marks. -/
  | escaped
  | single
  | double
  /-- After a backslash between double quotation marks. -/
  | doubleEscaped
  deriving DecidableEq, Repr

namespace Context

/-- The context after a byte. -/
def after (x : Context) (b : UInt8) : Context :=
  match x with
  | unquoted =>
    if b = '\''.toUInt8 then single
    else if b = '"'.toUInt8 then double
    else if b = '\\'.toUInt8 then escaped
    else unquoted
  | escaped => unquoted
  | single => if b = '\''.toUInt8 then unquoted else single
  | double =>
    if b = '"'.toUInt8 then unquoted else if b = '\\'.toUInt8 then doubleEscaped else double
  | doubleEscaped => double

/-- The context after some bytes. -/
def afterAll (x : Context) (l : Bytes) : Context := l.foldl after x

/-- The bytes of a line, each with the context that it is met in. -/
def meets : Context → Bytes → List (Context × UInt8)
  | _, [] => []
  | x, b :: l => (x, b) :: meets (x.after b) l

theorem afterAll_append (x : Context) (l m : Bytes) :
    x.afterAll (l ++ m) = (x.afterAll l).afterAll m :=
  List.foldl_append

theorem meets_append (x : Context) (l m : Bytes) :
    x.meets (l ++ m) = x.meets l ++ (x.afterAll l).meets m := by
  induction l generalizing x with
  | nil => rfl
  | cons b l ih =>
      rw [List.cons_append, meets, ih]
      rfl

/-- Bytes that keep the context are all met in it. -/
theorem meets_of_stays {x : Context} {l : Bytes} (h : ∀ b ∈ l, x.after b = x) :
    x.meets l = l.map (x, ·) ∧ x.afterAll l = x := by
  induction l with
  | nil => exact ⟨rfl, rfl⟩
  | cons b l ih =>
      have hb := h b List.mem_cons_self
      obtain ⟨hmeets, hafter⟩ := ih (fun y hy => h y (List.mem_cons_of_mem b hy))
      constructor
      · rw [meets, hb, hmeets, List.map_cons]
      · rw [afterAll, List.foldl_cons, hb]
        exact hafter

/-- The byte met next is met in the context that the last one has led to. -/
theorem meets_next {x : Context} {l : Bytes} {m r : List (Context × UInt8)} {y : Context}
    {b : UInt8} (h : x.meets l = m ++ (y, b) :: r) :
    r = [] ∧ x.afterAll l = y.after b ∨ ∃ c r', r = (y.after b, c) :: r' := by
  induction l generalizing x m with
  | nil => simp [meets] at h
  | cons a l ih =>
      rw [meets] at h
      cases m with
      | nil =>
          obtain ⟨hab, rfl⟩ := List.cons.inj h
          obtain ⟨rfl, rfl⟩ := Prod.mk.inj hab
          cases l with
          | nil => exact .inl ⟨rfl, rfl⟩
          | cons c l => exact .inr ⟨c, _, rfl⟩
      | cons p m =>
          obtain ⟨_, hrest⟩ := List.cons.inj h
          exact ih hrest

end Context

/-- The bytes of a line, each with the context that a reader from its start meets it in. -/
def scan (line : Bytes) : List (Context × UInt8) := Context.meets .unquoted line

/-- The bytes that mean nothing special to a shell, wherever they stand. -/
def IsBare (b : UInt8) : Prop :=
  b ∈ ['+', '-', '.', '/', ':', '@', ']', '_'].map Char.toUInt8 ∨
    '0'.toUInt8 ≤ b ∧ b ≤ '9'.toUInt8 ∨ 'A'.toUInt8 ≤ b ∧ b ≤ 'Z'.toUInt8 ∨
    'a'.toUInt8 ≤ b ∧ b ≤ 'z'.toUInt8

/-- A line in which a reader of quotation meets nothing special. -/
structure Harmless (line : Bytes) : Prop where
  /-- No quotation is left open. -/
  closed : Context.afterAll .unquoted line = .unquoted
  bare : ∀ b, (.unquoted, b) ∈ scan line →
    IsBare b ∨ b = '\''.toUInt8 ∨ b = '"'.toUInt8 ∨ b = ' '.toUInt8
  inSingle : ∀ b, (.single, b) ∈ scan line → b ≠ '\\'.toUInt8
  /-- In single quotes a circumflex is met only right after the mark that opens them. -/
  circumflex : ∀ l r, scan line = l ++ (.single, '^'.toUInt8) :: r →
    ∃ l', l = l' ++ [(.unquoted, '\''.toUInt8)]
  inDouble : ∀ b, (.double, b) ∈ scan line ∨ (.doubleEscaped, b) ∈ scan line →
    b ≠ '$'.toUInt8 ∧ b ≠ '`'.toUInt8 ∧ b ≠ '!'.toUInt8 ∧ b ≠ '^'.toUInt8
  /-- In double quotes a backslash is met only before a double quotation mark or a backslash. -/
  backslash : ∀ l r, scan line = l ++ (.double, '\\'.toUInt8) :: r →
    ∃ b r', r = (.doubleEscaped, b) :: r' ∧ (b = '"'.toUInt8 ∨ b = '\\'.toUInt8)

theorem holds_unquoted_iff (b : UInt8) : Style.unquoted.holds b = true ↔ IsBare b := by
  unfold IsBare
  revert b
  apply forall_byte
  decide +kernel

/-! ## Lines side by side -/

theorem scan_append {l m : Bytes} (h : Context.afterAll .unquoted l = .unquoted) :
    scan (l ++ m) = scan l ++ scan m := by
  rw [scan, Context.meets_append, h]
  rfl

/-- An element of a list in two parts stands in the first or in the second. -/
theorem append_eq_append_cons {α : Type} {a b l r : List α} {x : α} (h : a ++ b = l ++ x :: r) :
    (∃ r', a = l ++ x :: r' ∧ r = r' ++ b) ∨ ∃ l', l = a ++ l' ∧ b = l' ++ x :: r := by
  rcases List.append_eq_append_iff.mp h with ⟨m, hl, hb⟩ | ⟨m, ha, hr⟩
  · exact .inr ⟨m, hl, hb⟩
  · cases m with
    | nil => exact .inr ⟨[], by simpa using ha.symm, hr.symm⟩
    | cons y m =>
        obtain ⟨rfl, rfl⟩ := List.cons.inj hr
        exact .inl ⟨m, ha, rfl⟩

/-- A line that is met outside quotes only is harmless if each of its bytes is. -/
theorem Harmless.of_unquoted {line : Bytes} (hclosed : Context.afterAll .unquoted line = .unquoted)
    (h : ∀ p ∈ scan line, p.1 = .unquoted ∧
      (IsBare p.2 ∨ p.2 = '\''.toUInt8 ∨ p.2 = '"'.toUInt8 ∨ p.2 = ' '.toUInt8)) :
    Harmless line := by
  refine ⟨hclosed, ?_, ?_, ?_, ?_, ?_⟩
  · intro b hb
    exact (h _ hb).2
  · intro b hb
    cases (h _ hb).1
  · intro l r hlr
    cases (h (.single, '^'.toUInt8) (by simp [hlr])).1
  · rintro b (hb | hb) <;> cases (h _ hb).1
  · intro l r hlr
    cases (h (.double, '\\'.toUInt8) (by simp [hlr])).1

theorem Harmless.nil : Harmless [] := .of_unquoted rfl (by simp [scan, Context.meets])

/-- Two harmless lines side by side are harmless: each is read from outside quotes. -/
theorem Harmless.append {l m : Bytes} (hl : Harmless l) (hm : Harmless m) : Harmless (l ++ m) := by
  have hscan : scan (l ++ m) = scan l ++ scan m := scan_append hl.closed
  refine ⟨?_, ?_, ?_, ?_, ?_, ?_⟩
  · rw [Context.afterAll_append, hl.closed, hm.closed]
  · intro b hb
    rw [hscan] at hb
    rcases List.mem_append.mp hb with hb | hb
    · exact hl.bare b hb
    · exact hm.bare b hb
  · intro b hb
    rw [hscan] at hb
    rcases List.mem_append.mp hb with hb | hb
    · exact hl.inSingle b hb
    · exact hm.inSingle b hb
  · intro a r h
    rw [hscan] at h
    rcases append_eq_append_cons h with ⟨r', ha, _⟩ | ⟨a', rfl, hb⟩
    · exact hl.circumflex a r' ha
    · obtain ⟨a'', rfl⟩ := hm.circumflex a' r hb
      exact ⟨scan l ++ a'', (List.append_assoc _ _ _).symm⟩
  · intro b hb
    rw [hscan, List.mem_append, List.mem_append] at hb
    rcases hb with (hb | hb) | (hb | hb)
    · exact hl.inDouble b (.inl hb)
    · exact hm.inDouble b (.inl hb)
    · exact hl.inDouble b (.inr hb)
    · exact hm.inDouble b (.inr hb)
  · intro a r h
    rw [hscan] at h
    rcases append_eq_append_cons h with ⟨r', ha, rfl⟩ | ⟨a', _, hb⟩
    · obtain ⟨b, r'', rfl, hguard⟩ := hl.backslash a r' ha
      exact ⟨b, r'' ++ scan m, rfl, hguard⟩
    · exact hm.backslash a' r hb

/-! ## Written chunks -/

theorem after_unquoted {b : UInt8} (h : Style.unquoted.holds b = true) :
    Context.after .unquoted b = .unquoted := by
  have hq : b ≠ '\''.toUInt8 := by rintro rfl; exact absurd h (by decide)
  have hd : b ≠ '"'.toUInt8 := by rintro rfl; exact absurd h (by decide)
  have hb : b ≠ '\\'.toUInt8 := by rintro rfl; exact absurd h (by decide)
  rw [Context.after, if_neg hq, if_neg hd, if_neg hb]

theorem scan_unquoted {bs : Bytes} (h : ∀ b ∈ bs, Style.unquoted.holds b = true) :
    scan bs = bs.map (.unquoted, ·) ∧ Context.afterAll .unquoted bs = .unquoted :=
  Context.meets_of_stays fun b hb => after_unquoted (h b hb)

theorem scan_single {bs : Bytes} (h : ∀ b ∈ bs, b ≠ '\''.toUInt8) :
    scan ('\''.toUInt8 :: (bs ++ ['\''.toUInt8])) =
        (.unquoted, '\''.toUInt8) :: (bs.map (.single, ·) ++ [(.single, '\''.toUInt8)]) ∧
      Context.afterAll .unquoted ('\''.toUInt8 :: (bs ++ ['\''.toUInt8])) = .unquoted := by
  have hstays : ∀ b ∈ bs, Context.after .single b = .single := by
    intro b hb
    rw [Context.after, if_neg (h b hb)]
  obtain ⟨hmeets, hafter⟩ := Context.meets_of_stays hstays
  constructor
  · show (Context.unquoted, _) :: Context.meets .single _ = _
    rw [Context.meets_append, hmeets, hafter]
    rfl
  · show Context.afterAll .single _ = _
    rw [Context.afterAll_append, hafter]
    rfl

/-- A guarded byte is met in double quotes, or after a backslash if it would end them. -/
theorem meets_guarded (b : UInt8) :
    Context.afterAll .double (Chunk.guarded b) = .double ∧
      ∀ p ∈ Context.meets .double (Chunk.guarded b), p = (.double, '\\'.toUInt8) ∨
        p = (.double, b) ∨ p.1 = .doubleEscaped ∧ (p.2 = '"'.toUInt8 ∨ p.2 = '\\'.toUInt8) := by
  unfold Chunk.guarded
  split
  · rename_i hb
    refine ⟨rfl, ?_⟩
    intro p hp
    simp only [Context.meets, List.mem_cons, List.not_mem_nil, or_false] at hp
    rcases hp with rfl | rfl
    · exact .inl rfl
    · exact .inr (.inr ⟨rfl, hb⟩)
  · rename_i hb
    rw [not_or] at hb
    constructor
    · show Context.after .double b = .double
      rw [Context.after, if_neg hb.1, if_neg hb.2]
    · intro p hp
      exact .inr (.inl (List.mem_singleton.mp hp))

theorem meets_flatMap_guarded (bs : Bytes) :
    Context.afterAll .double (bs.flatMap Chunk.guarded) = .double ∧
      ∀ p ∈ Context.meets .double (bs.flatMap Chunk.guarded), p = (.double, '\\'.toUInt8) ∨
        (∃ b ∈ bs, p = (.double, b)) ∨
        p.1 = .doubleEscaped ∧ (p.2 = '"'.toUInt8 ∨ p.2 = '\\'.toUInt8) := by
  induction bs with
  | nil => exact ⟨rfl, by simp [Context.meets]⟩
  | cons b bs ih =>
      obtain ⟨hafter, hmeets⟩ := meets_guarded b
      rw [List.flatMap_cons, Context.afterAll_append, Context.meets_append, hafter]
      refine ⟨ih.1, ?_⟩
      intro p hp
      rcases List.mem_append.mp hp with hp | hp
      · rcases hmeets p hp with hp | hp | hp
        · exact .inl hp
        · exact .inr (.inl ⟨b, List.mem_cons_self, hp⟩)
        · exact .inr (.inr hp)
      · rcases ih.2 p hp with hp | ⟨x, hx, hp⟩ | hp
        · exact .inl hp
        · exact .inr (.inl ⟨x, List.mem_cons_of_mem b hx, hp⟩)
        · exact .inr (.inr hp)

theorem scan_double (bs : Bytes) :
    Context.afterAll .unquoted ('"'.toUInt8 :: (bs.flatMap Chunk.guarded ++ ['"'.toUInt8])) =
        .unquoted ∧
      ∀ p ∈ scan ('"'.toUInt8 :: (bs.flatMap Chunk.guarded ++ ['"'.toUInt8])),
        p = (.unquoted, '"'.toUInt8) ∨ p = (.double, '"'.toUInt8) ∨
        p = (.double, '\\'.toUInt8) ∨ (∃ b ∈ bs, p = (.double, b)) ∨
        p.1 = .doubleEscaped ∧ (p.2 = '"'.toUInt8 ∨ p.2 = '\\'.toUInt8) := by
  obtain ⟨hafter, hmeets⟩ := meets_flatMap_guarded bs
  constructor
  · show Context.afterAll .double _ = _
    rw [Context.afterAll_append, hafter]
    rfl
  · intro p hp
    have happ := Context.meets_append .double (bs.flatMap Chunk.guarded) ['"'.toUInt8]
    rw [hafter] at happ
    rcases List.mem_cons.mp hp with hp | hp
    · exact .inl hp
    · rw [show Context.after .unquoted '"'.toUInt8 = .double from rfl, happ] at hp
      rcases List.mem_append.mp hp with hp | hp
      · exact .inr (.inr (hmeets p hp))
      · exact .inr (.inl (List.mem_singleton.mp hp))

/-! ## Each style -/

theorem harmless_unquoted {bs : Bytes} (h : ∀ b ∈ bs, Style.unquoted.holds b = true) :
    Harmless bs := by
  obtain ⟨hscan, hclosed⟩ := scan_unquoted h
  apply Harmless.of_unquoted hclosed
  intro p hp
  rw [hscan] at hp
  obtain ⟨b, hb, rfl⟩ := List.mem_map.mp hp
  exact ⟨rfl, .inl ((holds_unquoted_iff b).mp (h b hb))⟩

/-- The first byte alone may be a circumflex: the opening mark stands right before it. -/
theorem harmless_single {bs : Bytes} (h : ∀ b ∈ bs, b ≠ '\''.toUInt8 ∧ b ≠ '\\'.toUInt8)
    (hc : '^'.toUInt8 ∉ bs.tail) : Harmless ('\''.toUInt8 :: (bs ++ ['\''.toUInt8])) := by
  obtain ⟨hscan, hclosed⟩ := scan_single (fun b hb => (h b hb).1)
  have hall : ∀ p ∈ scan ('\''.toUInt8 :: (bs ++ ['\''.toUInt8])),
      p = (.unquoted, '\''.toUInt8) ∨ p = (.single, '\''.toUInt8) ∨
        ∃ b ∈ bs, p = (.single, b) := by
    intro p hp
    rw [hscan] at hp
    simp only [List.mem_cons, List.mem_append, List.mem_map, List.not_mem_nil, or_false] at hp
    rcases hp with hp | ⟨b, hb, hp⟩ | hp
    · exact .inl hp
    · exact .inr (.inr ⟨b, hb, hp.symm⟩)
    · exact .inr (.inl hp)
  refine ⟨hclosed, ?_, ?_, ?_, ?_, ?_⟩
  · intro b hb
    rcases hall _ hb with hp | hp | ⟨_, _, hp⟩
    · obtain ⟨_, rfl⟩ := Prod.mk.inj hp
      exact .inr (.inl rfl)
    · cases hp
    · cases hp
  · intro b hb
    rcases hall _ hb with hp | hp | ⟨x, hx, hp⟩
    · cases hp
    · obtain ⟨_, rfl⟩ := Prod.mk.inj hp
      decide
    · obtain ⟨_, rfl⟩ := Prod.mk.inj hp
      exact (h _ hx).2
  · intro l r hlr
    rw [hscan] at hlr
    cases l with
    | nil => cases hlr
    | cons p l =>
        obtain ⟨rfl, htail⟩ := List.cons.inj hlr
        cases l with
        | nil => exact ⟨[], rfl⟩
        | cons q l =>
            -- past the first byte there is no circumflex left
            have hmem : (Context.single, '^'.toUInt8) ∈
                bs.tail.map (Context.single, ·) ++ [(Context.single, '\''.toUInt8)] := by
              cases bs with
              | nil => simp at htail
              | cons b bs =>
                  rw [List.map_cons, List.cons_append] at htail
                  rw [List.tail_cons, (List.cons.inj htail).2]
                  simp
            rcases List.mem_append.mp hmem with hmem | hmem
            · obtain ⟨x, hx, hp⟩ := List.mem_map.mp hmem
              obtain ⟨_, rfl⟩ := Prod.mk.inj hp
              exact absurd hx hc
            · cases List.mem_singleton.mp hmem
  · rintro b (hb | hb) <;> rcases hall _ hb with hp | hp | ⟨_, _, hp⟩ <;> cases hp
  · intro l r hlr
    rcases hall (.double, '\\'.toUInt8) (by simp [hlr]) with hp | hp | ⟨_, _, hp⟩ <;> cases hp

theorem harmless_double {bs : Bytes} (h : ∀ b ∈ bs, Style.double.holds b = true) :
    Harmless ('"'.toUInt8 :: (bs.flatMap Chunk.guarded ++ ['"'.toUInt8])) := by
  obtain ⟨hclosed, hall⟩ := scan_double bs
  generalize '"'.toUInt8 :: (bs.flatMap Chunk.guarded ++ ['"'.toUInt8]) = line at hclosed hall
  have hguarded : ∀ b, (.doubleEscaped, b) ∈ scan line → b = '"'.toUInt8 ∨ b = '\\'.toUInt8 := by
    intro b hb
    rcases hall _ hb with hp | hp | hp | ⟨_, _, hp⟩ | ⟨_, hp⟩
    · cases hp
    · cases hp
    · cases hp
    · cases hp
    · exact hp
  have hnoSingle : ∀ b, (.single, b) ∉ scan line := by
    intro b hb
    rcases hall _ hb with hp | hp | hp | ⟨_, _, hp⟩ | ⟨hp, _⟩ <;> cases hp
  refine ⟨hclosed, ?_, ?_, ?_, ?_, ?_⟩
  · intro b hb
    rcases hall _ hb with hp | hp | hp | ⟨_, _, hp⟩ | ⟨hp, _⟩
    · obtain ⟨_, rfl⟩ := Prod.mk.inj hp
      exact .inr (.inr (.inl rfl))
    · cases hp
    · cases hp
    · cases hp
    · cases hp
  · intro b hb
    exact absurd hb (hnoSingle b)
  · intro l r hlr
    exact absurd (by simp [hlr]) (hnoSingle '^'.toUInt8)
  · rintro b (hb | hb)
    · rcases hall _ hb with hp | hp | hp | ⟨x, hx, hp⟩ | ⟨hp, _⟩
      · cases hp
      · obtain ⟨_, rfl⟩ := Prod.mk.inj hp
        decide
      · obtain ⟨_, rfl⟩ := Prod.mk.inj hp
        decide
      · obtain ⟨_, rfl⟩ := Prod.mk.inj hp
        exact Style.ne_of_holds_double (h _ hx)
      · cases hp
    · rcases hguarded b hb with rfl | rfl <;> decide
  · intro l r hlr
    rcases Context.meets_next hlr with ⟨_, hopen⟩ | ⟨c, r', rfl⟩
    · -- the line would end after a backslash
      rw [hclosed] at hopen
      cases hopen
    · rw [show Context.after .double '\\'.toUInt8 = .doubleEscaped from rfl] at hlr
      exact ⟨c, r', rfl, hguarded c (by simp [hlr])⟩

/-! ## Words and command lines -/

theorem Chunk.Fits.circumflex_not_mem_tail {k : Chunk} (h : k.Fits) (hs : k.style = .single) :
    '^'.toUInt8 ∉ k.bytes.tail := by
  obtain ⟨b, bs, hbytes, _, hrest⟩ := h
  intro hmem
  rw [hbytes, List.tail_cons] at hmem
  have hheld := hrest _ hmem
  rw [hs] at hheld
  exact absurd rfl (Style.ne_of_holds_single hheld).2.2

theorem Chunk.Fits.harmless {k : Chunk} (h : k.Fits) : Harmless k.write := by
  cases hs : k.style with
  | unquoted =>
      rw [Chunk.write_unquoted hs]
      exact harmless_unquoted (h.holds_unquoted hs)
  | single =>
      rw [Chunk.write_single hs]
      exact harmless_single (h.ne_of_single hs) (h.circumflex_not_mem_tail hs)
  | double =>
      rw [Chunk.write_double hs]
      exact harmless_double (h.holds_double hs)

/-- Spaces in a word are met between quotation marks only. -/
theorem Chunk.Fits.space_not_mem_scan {k : Chunk} (h : k.Fits) :
    (.unquoted, ' '.toUInt8) ∉ scan k.write := by
  intro hmem
  cases hs : k.style with
  | unquoted =>
      rw [Chunk.write_unquoted hs, (scan_unquoted (h.holds_unquoted hs)).1] at hmem
      obtain ⟨x, hx, hp⟩ := List.mem_map.mp hmem
      obtain ⟨_, rfl⟩ := Prod.mk.inj hp
      exact absurd (h.holds_unquoted hs _ hx) (by decide)
  | single =>
      rw [Chunk.write_single hs, (scan_single fun b hb => (h.ne_of_single hs b hb).1).1] at hmem
      have hmark : (Context.unquoted, ' '.toUInt8) = (.unquoted, '\''.toUInt8) := by
        simpa using hmem
      exact absurd hmark (by decide)
  | double =>
      rw [Chunk.write_double hs] at hmem
      rcases (scan_double k.bytes).2 _ hmem with hp | hp | hp | ⟨_, _, hp⟩ | ⟨hp, _⟩
      · exact absurd (Prod.mk.inj hp).2 (by decide)
      · cases hp
      · cases hp
      · cases hp
      · cases hp

theorem harmless_flatMap_write {ks : List Chunk} (h : ∀ k ∈ ks, k.Fits) :
    Harmless (ks.flatMap Chunk.write) ∧
      (.unquoted, ' '.toUInt8) ∉ scan (ks.flatMap Chunk.write) := by
  induction ks with
  | nil => exact ⟨.nil, by simp [scan, Context.meets]⟩
  | cons k ks ih =>
      have hk : k.Fits := h k List.mem_cons_self
      obtain ⟨hrest, hspace⟩ := ih (fun x hx => h x (List.mem_cons_of_mem k hx))
      rw [List.flatMap_cons]
      refine ⟨hk.harmless.append hrest, ?_⟩
      rw [scan_append hk.harmless.closed, List.mem_append, not_or]
      exact ⟨hk.space_not_mem_scan, hspace⟩

theorem harmless_quote {w : Bytes} (h : 0 ∉ w) :
    Harmless (quote w) ∧ (.unquoted, ' '.toUInt8) ∉ scan (quote w) := by
  rw [quote_eq h]
  split
  · have hpair : Harmless ('\''.toUInt8 :: ([] ++ ['\''.toUInt8])) :=
      harmless_single (by simp) (by simp)
    exact ⟨hpair, by decide⟩
  · exact harmless_flatMap_write (chunks_fit w)

theorem harmless_space : Harmless [' '.toUInt8] := by
  apply Harmless.of_unquoted rfl
  intro p hp
  rw [show p = (.unquoted, ' '.toUInt8) from List.mem_singleton.mp hp]
  exact ⟨rfl, .inr (.inr (.inr rfl))⟩

theorem harmless_commandLine {ws : List Bytes} (h : ∀ w ∈ ws, 0 ∉ w) :
    Harmless (commandLine ws) :=
  commandLine_induction .nil harmless_space Harmless.append fun w hw => (harmless_quote (h w hw)).1

theorem scan_commandLine_cons_cons {w v : Bytes} {ws : List Bytes} (h : 0 ∉ w) :
    scan (commandLine (w :: v :: ws)) =
      scan (quote w) ++ (.unquoted, ' '.toUInt8) :: scan (commandLine (v :: ws)) := by
  rw [commandLine_cons_cons, scan_append (harmless_quote h).1.closed]
  rfl

/-- One space is met between each two words. -/
theorem count_space_scan {w : Bytes} {ws : List Bytes} (h : ∀ v ∈ w :: ws, 0 ∉ v) :
    (scan (commandLine (w :: ws))).count (.unquoted, ' '.toUInt8) = ws.length := by
  induction ws generalizing w with
  | nil =>
      rw [commandLine_singleton]
      exact List.count_eq_zero.mpr (harmless_quote (h w List.mem_cons_self)).2
  | cons v ws ih =>
      have hw : 0 ∉ w := h w List.mem_cons_self
      have hfirst : (scan (quote w)).count (.unquoted, ' '.toUInt8) = 0 :=
        List.count_eq_zero.mpr (harmless_quote hw).2
      have hrest := ih (fun x hx => h x (List.mem_cons_of_mem w hx))
      rw [scan_commandLine_cons_cons hw, List.count_append, List.count_cons_self, hfirst, hrest,
        Nat.zero_add, List.length_cons]

/-- No word begins with a space, so no two spaces between words are neighbours. -/
theorem scan_commandLine_ne {ws : List Bytes} (h : ∀ w ∈ ws, 0 ∉ w)
    (l r : List (Context × UInt8)) :
    scan (commandLine ws) ≠ l ++ (.unquoted, ' '.toUInt8) :: (.unquoted, ' '.toUInt8) :: r := by
  induction ws generalizing l r with
  | nil => simp [commandLine, List.intercalate, scan, Context.meets]
  | cons w ws ih =>
      have hw : (.unquoted, ' '.toUInt8) ∉ scan (quote w) :=
        (harmless_quote (h w List.mem_cons_self)).2
      cases ws with
      | nil =>
          rw [commandLine_singleton]
          intro heq
          apply hw
          simp [heq]
      | cons v ws =>
          have hlater : ∀ x ∈ v :: ws, 0 ∉ x := fun x hx => h x (List.mem_cons_of_mem w hx)
          rw [scan_commandLine_cons_cons (h w List.mem_cons_self)]
          intro heq
          rcases append_eq_append_cons heq with ⟨r', hquote, _⟩ | ⟨l', _, hrest⟩
          · apply hw
            simp [hquote]
          · cases l' with
            | nil =>
                -- the first of the two is the one before the words left
                obtain ⟨b, line, hline, hedge⟩ := commandLine_first hlater
                have hnext := (List.cons.inj hrest).2
                rw [hline] at hnext
                exact hedge.ne_space (Prod.mk.inj (List.cons.inj hnext).1).2
            | cons p l' => exact ih hlater l' r (List.cons.inj hrest).2

end LastMatch.Words

namespace LastMatch.Editor

open Words

/-- **A shown command line is harmless to a shell.** A reader of quotation ends outside quotes and
meets nothing special, whatever bytes the path and the words of the editor consist of. Outside
quotes it meets one space between each two words, and no two of them side by side. -/
theorem displayCommand_harmless (e : Editor) (path : Bytes) (he : e.NoNul) (hp : 0 ∉ path) :
    Harmless (e.displayCommand path) ∧
      (scan (e.displayCommand path)).count (.unquoted, ' '.toUInt8) = e.args.length + 1 ∧
      ∀ l r, scan (e.displayCommand path) ≠
        l ++ (.unquoted, ' '.toUInt8) :: (.unquoted, ' '.toUInt8) :: r := by
  have hwords : ∀ w ∈ e.argv path, 0 ∉ w := he.argv hp
  refine ⟨harmless_commandLine hwords, ?_, scan_commandLine_ne hwords⟩
  have hcount : (scan (e.displayCommand path)).count (.unquoted, ' '.toUInt8) =
      (e.args.map Utf8.encode ++ [path]).length := count_space_scan hwords
  rw [hcount, List.length_append, List.length_map, List.length_singleton]

/-- An editor whose arguments are an empty word and one with a space, on a path that asks for all
three styles. -/
theorem displayCommand_harmless_styles :
    let e : Editor := ⟨"vi", ["", "a b"], by decide⟩
    let path := Utf8.encode "it's^x;$(rm)!\\"
    e.NoNul ∧ 0 ∉ path ∧ Harmless (e.displayCommand path) ∧
      (scan (e.displayCommand path)).count (.unquoted, ' '.toUInt8) = 3 := by
  intro e path
  have he : e.NoNul := by decide
  have hp : 0 ∉ path := by decide
  have hline := displayCommand_harmless e path he hp
  exact ⟨he, hp, hline.1, hline.2.1⟩

end LastMatch.Editor
