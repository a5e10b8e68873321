import LastMatch.Text.Blank
import Mathlib.Data.List.TakeWhile

/-!
# What trimming removes

A text is trimmed by cutting it into three parts: white space, a text that neither starts nor ends
with white space, and white space again. The part in the middle is determined, and it is what
`Text.trim` gives.

* `whiteSpace` lists the characters of the Unicode property one by one.
* `Trimmed` says that a text is cut in this way.
* `trimmed_trim` and `Trimmed.trim_eq` say that trimming finds the part in the middle.
-/

namespace LastMatch.Text

/-- The code points with the Unicode property White_Space. -/
def whiteSpace : List Nat :=
  [0x0009, 0x000A, 0x000B, 0x000C, 0x000D, 0x0020, 0x0085, 0x00A0, 0x1680, 0x2000, 0x2001, 0x2002,
   0x2003, 0x2004, 0x2005, 0x2006, 0x2007, 0x2008, 0x2009, 0x200A, 0x2028, 0x2029, 0x202F, 0x205F,
   0x3000]

/-- A text, cut before and behind a part of it. Around this part there is white space only, and it
neither starts nor ends with any. -/
structure Trimmed (s : String) (lead : List Char) (t : String) (trail : List Char) : Prop where
  toList_eq : s.toList = lead ++ (t.toList ++ trail)
  lead_whiteSpace : ∀ c ∈ lead, c.toNat ∈ whiteSpace
  trail_whiteSpace : ∀ c ∈ trail, c.toNat ∈ whiteSpace
  first : ∀ c, t.toList.head? = some c → c.toNat ∉ whiteSpace
  last : ∀ c, t.toList.getLast? = some c → c.toNat ∉ whiteSpace

variable {s t a b : String} {lead trail cs ds : List Char} {c x z : Char}

theorem trimmed_iff : Trimmed s lead t trail ↔
    s.toList = lead ++ (t.toList ++ trail) ∧
      (lead.all fun c => c.toNat ∈ whiteSpace) = true ∧
      (trail.all fun c => c.toNat ∈ whiteSpace) = true ∧
      (t.toList.head?.all fun c => c.toNat ∉ whiteSpace) = true ∧
      (t.toList.getLast?.all fun c => c.toNat ∉ whiteSpace) = true := by
  simp only [List.all_eq_true, Option.all_eq_true, decide_eq_true_eq]
  constructor
  · rintro ⟨hs, hlead, htrail, hfirst, hlast⟩
    exact ⟨hs, hlead, htrail, hfirst, hlast⟩
  · rintro ⟨hs, hlead, htrail, hfirst, hlast⟩
    exact ⟨hs, hlead, htrail, hfirst, hlast⟩

instance : Decidable (Trimmed s lead t trail) := decidable_of_iff _ trimmed_iff.symm

/-! ## Blanks -/

/-- The ranges hold these code points and no others. -/
theorem isBlank_iff : isBlank c = true ↔ c.toNat ∈ whiteSpace := by
  simp only [isBlank, blankRanges, whiteSpace, List.any_cons, List.any_nil, Bool.or_false,
    Bool.or_eq_true, Bool.and_eq_true, decide_eq_true_eq, List.mem_cons, List.not_mem_nil, or_false]
  omega

theorem isBlank_eq_false_iff : isBlank c = false ↔ c.toNat ∉ whiteSpace := by
  rw [← Bool.not_eq_true, isBlank_iff]

theorem dropWhile_of_first (h : ∀ c, cs.head? = some c → isBlank c = false) :
    cs.dropWhile isBlank = cs := by
  cases cs with
  | nil => rfl
  | cons c cs => rw [List.dropWhile_cons, h c rfl]; rfl

theorem isBlank_first_dropWhile (h : (cs.dropWhile isBlank).head? = some c) :
    isBlank c = false := by
  have hnot := List.head?_dropWhile_not isBlank cs
  rwa [h] at hnot

/-! ## Both ends -/

theorem trimEnd_append (htrail : ∀ c ∈ trail, isBlank c = true) (cs : List Char) :
    trimEnd (cs ++ trail) = trimEnd cs := by
  rw [trimEnd, List.reverse_append,
    List.dropWhile_append_of_pos fun c hc => htrail c (List.mem_reverse.mp hc), trimEnd]

theorem trimEnd_of_last (h : ∀ c, cs.getLast? = some c → isBlank c = false) : trimEnd cs = cs := by
  rw [trimEnd, dropWhile_of_first, List.reverse_reverse]
  intro c hc
  rw [List.head?_reverse] at hc
  exact h c hc

/-- The end that is cut off is blank. -/
theorem exists_trimEnd_append (cs : List Char) :
    ∃ trail, cs = trimEnd cs ++ trail ∧ ∀ c ∈ trail, isBlank c = true := by
  refine ⟨(cs.reverse.takeWhile isBlank).reverse, ?_, ?_⟩
  · rw [trimEnd, ← List.reverse_append, List.takeWhile_append_dropWhile, List.reverse_reverse]
  · intro c hc
    exact List.all_eq_true.mp List.all_takeWhile c (List.mem_reverse.mp hc)

/-- Trimming cuts a text as it should be cut. -/
theorem trimmed_trim (s : String) : ∃ lead trail, Trimmed s lead (trim s) trail := by
  obtain ⟨trail, hrest, htrail⟩ := exists_trimEnd_append (s.toList.dropWhile isBlank)
  refine ⟨s.toList.takeWhile isBlank, trail, ?_, ?_, ?_, ?_, ?_⟩
  · rw [toList_trim, trimChars, ← hrest, List.takeWhile_append_dropWhile]
  · intro c hc
    exact isBlank_iff.mp (List.all_eq_true.mp List.all_takeWhile c hc)
  · intro c hc
    exact isBlank_iff.mp (htrail c hc)
  · intro c hc
    rw [toList_trim, trimChars] at hc
    have hhead : (s.toList.dropWhile isBlank).head? = some c := by
      rw [hrest, List.head?_append, hc]
      rfl
    exact isBlank_eq_false_iff.mp (isBlank_first_dropWhile hhead)
  · intro c hc
    rw [toList_trim, trimChars, trimEnd, List.getLast?_reverse] at hc
    exact isBlank_eq_false_iff.mp (isBlank_first_dropWhile hc)

/-- There is only one way to cut it so. -/
theorem Trimmed.trim_eq (h : Trimmed s lead t trail) : trim s = t := by
  have hlead : ∀ c ∈ lead, isBlank c = true := fun c hc => isBlank_iff.mpr (h.lead_whiteSpace c hc)
  have htrail : ∀ c ∈ trail, isBlank c = true :=
    fun c hc => isBlank_iff.mpr (h.trail_whiteSpace c hc)
  have hfirst : ∀ c, t.toList.head? = some c → isBlank c = false :=
    fun c hc => isBlank_eq_false_iff.mpr (h.first c hc)
  have hlast : ∀ c, t.toList.getLast? = some c → isBlank c = false :=
    fun c hc => isBlank_eq_false_iff.mpr (h.last c hc)
  have hchars : trimChars s.toList = t.toList := by
    rw [trimChars, h.toList_eq, List.dropWhile_append_of_pos hlead]
    cases ht : t.toList with
    | nil =>
        rw [List.nil_append, List.dropWhile_eq_nil_iff.mpr htrail]
        rfl
    | cons x cs =>
        rw [ht] at hfirst hlast
        have hdrop : (x :: cs ++ trail).dropWhile isBlank = x :: cs ++ trail :=
          dropWhile_of_first hfirst
        rw [hdrop, trimEnd_append htrail, trimEnd_of_last hlast]
  rw [trim, hchars, String.ofList_toList]

/-! ## Texts without blanks around them -/

/-- A text whose first and last characters are not blank has nothing to trim. -/
theorem trim_eq_self (hfirst : s.toList = x :: cs) (hlast : s.toList = ds ++ [z])
    (hx : isBlank x = false) (hz : isBlank z = false) : trim s = s := by
  have htrimmed : Trimmed s [] s [] := by
    refine ⟨(List.append_nil _).symm, by simp, by simp, ?_, ?_⟩
    · intro c hc
      rw [hfirst] at hc
      cases hc
      exact isBlank_eq_false_iff.mp hx
    · intro c hc
      rw [hlast, List.getLast?_concat] at hc
      cases hc
      exact isBlank_eq_false_iff.mp hz
  exact htrimmed.trim_eq

/-- A text that trimming leaves unchanged does not start with a blank. -/
theorem isBlank_first (h : trim s = s) (hs : s.toList = x :: cs) : isBlank x = false := by
  obtain ⟨lead, trail, htrimmed⟩ := trimmed_trim s
  refine isBlank_eq_false_iff.mpr (htrimmed.first x ?_)
  rw [h, hs]
  rfl

/-- And it does not end with one. -/
theorem isBlank_last (h : trim s = s) (hs : s.toList = ds ++ [z]) : isBlank z = false := by
  obtain ⟨lead, trail, htrimmed⟩ := trimmed_trim s
  refine isBlank_eq_false_iff.mpr (htrimmed.last z ?_)
  rw [h, hs, List.getLast?_concat]

/-- Two such texts with something between them are one. -/
theorem trim_append (ha : trim a = a) (hb : trim b = b) (hane : a ≠ "") (hbne : b ≠ "")
    (s : String) : trim (a ++ s ++ b) = a ++ s ++ b := by
  obtain ⟨x, cs, hx⟩ := List.exists_cons_of_ne_nil (mt String.toList_eq_nil_iff.mp hane)
  obtain ⟨ds, z, hz⟩ := (List.eq_nil_or_concat b.toList).resolve_left
    (mt String.toList_eq_nil_iff.mp hbne)
  rw [List.concat_eq_append] at hz
  have hfirst : (a ++ s ++ b).toList = x :: (cs ++ s.toList ++ b.toList) := by
    rw [String.toList_append, String.toList_append, hx]
    rfl
  have hlast : (a ++ s ++ b).toList = (a ++ s).toList ++ ds ++ [z] := by
    rw [String.toList_append, hz, List.append_assoc]
  exact trim_eq_self hfirst hlast (isBlank_first ha hx) (isBlank_last hb hz)

end LastMatch.Text
