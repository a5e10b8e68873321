import LastMatch.Proofs.Courses
import LastMatch.Proofs.LastLines
import Mathlib.Data.List.Induction

/-!
# Printing what was printed

What one run prints can be what the next one reads. It is a single line without a delimiter, so all
of it is selected, except that a carriage return at its end now stands before a newline and belongs
to the ending. From run to run the path loses such a carriage return, until it has none left.

* `EndsInReturns` cuts a path before the carriage returns at its end.
* `Opening.Chain` says what the runs read when each is fed with the output of the one before it.
* `Opening.printing_settles` says what they print.
-/

namespace LastMatch

open Utf8

variable {path stem : Bytes} {n : Nat}

/-! ## Carriage returns at the end -/

/-- A path, cut before the carriage returns at its end. There are `n` of them. -/
structure EndsInReturns (path stem : Bytes) (n : Nat) : Prop where
  path_eq : path = stem ++ List.replicate n carriageReturn
  getLast?_ne : stem.getLast? ≠ some carriageReturn

theorem exists_endsInReturns (path : Bytes) : ∃ stem n, EndsInReturns path stem n := by
  induction path using List.reverseRecOn with
  | nil => exact ⟨[], 0, rfl, by simp⟩
  | append_singleton bs b ih =>
      by_cases hb : b = carriageReturn
      · obtain ⟨stem, n, hbs, hstem⟩ := ih
        refine ⟨stem, n + 1, ?_, hstem⟩
        rw [hbs, hb, List.append_assoc, List.replicate_succ']
      · exact ⟨bs ++ [b], 0, by simp, by simpa using hb⟩

namespace EndsInReturns

/-- A path that does not end in a carriage return has none of them at its end. -/
theorem eq_nil_of_replicate {as bs : Bytes} (has : as ++ bs = List.replicate n carriageReturn)
    (hstem : (stem ++ as).getLast? ≠ some carriageReturn) : as = [] := by
  obtain ⟨-, hreturns, -⟩ := List.append_eq_replicate_iff.mp has
  cases hlength : as.length with
  | zero => exact List.length_eq_zero_iff.mp hlength
  | succ k =>
      rw [hlength] at hreturns
      rw [hreturns, List.replicate_succ', ← List.append_assoc, List.getLast?_concat] at hstem
      exact absurd rfl hstem

theorem unique {stem' : Bytes} {n' : Nat} (h : EndsInReturns path stem n)
    (h' : EndsInReturns path stem' n') : stem' = stem ∧ n' = n := by
  have hstems : stem' = stem := by
    rcases List.append_eq_append_iff.mp (h.path_eq.symm.trans h'.path_eq) with
      ⟨as, hstem, has⟩ | ⟨as, hstem, has⟩
    · rw [eq_nil_of_replicate has.symm (hstem ▸ h'.getLast?_ne), List.append_nil] at hstem
      exact hstem
    · rw [eq_nil_of_replicate has.symm (hstem ▸ h.getLast?_ne), List.append_nil] at hstem
      exact hstem.symm
  have hlength := congrArg List.length (h'.path_eq.symm.trans h.path_eq)
  rw [hstems] at hlength
  exact ⟨hstems, by simpa using hlength⟩

/-- The text of the line that the path is printed as: a carriage return at the end is lost. -/
theorem lineText (h : EndsInReturns path stem n) :
    EndsInReturns (lineText path [newline]) stem (n - 1) := by
  obtain ⟨rfl, hstem⟩ := h
  refine ⟨?_, hstem⟩
  cases n with
  | zero => simp [LastMatch.lineText, hstem]
  | succ n => simp [LastMatch.lineText, List.replicate_succ', ← List.append_assoc]

end EndsInReturns

/-! ## One run -/

/-- What a selected path is free of: the byte that ends a path, and the byte that ends a line. -/
structure Selection.IsPath (path : Bytes) : Prop where
  delimiter_not_mem : delimiter ∉ path
  newline_not_mem : newline ∉ path

namespace Selection.IsPath

theorem path_ofBytes (stream : Bytes) : IsPath (ofBytes stream).path :=
  ⟨delimiter_not_mem_path _, newline_not_mem_path stream⟩

theorem endsInLine (h : IsPath path) : EndsInLine (asLine path) [] path [newline] :=
  ⟨rfl, .inl rfl, h.newline_not_mem, .inl rfl⟩

theorem lineText (h : IsPath path) : IsPath (lineText path [newline]) where
  delimiter_not_mem := fun hmem => h.delimiter_not_mem (mem_of_mem_lineText hmem)
  newline_not_mem := newline_not_mem_lineText h.newline_not_mem

/-- A printed path is selected again as a line without a delimiter. -/
theorem ofBytes_asLine (h : IsPath path) :
    ofBytes (asLine path) = .bare (LastMatch.lineText path [newline]) := by
  rw [ofBytes_of_endsInLine h.endsInLine]
  exact ofLine_eq_bare_iff.mpr ⟨rfl, h.lineText.delimiter_not_mem⟩

end Selection.IsPath

namespace Opening

variable {host : Host} {o : Opening} {input : Input}

/-- The record of a run that prints the path of a selection and has read all of its input. -/
def printed (o : Opening) (s : Selection) : Record where
  actions := o.warnings s ++ [.wrote (asLine s.path)]
  result := .ok ⟨0, [], []⟩
  unread := []

theorem written_printed (o : Opening) (s : Selection) : (o.printed s).written = asLine s.path := by
  rw [printed, written_warnings_append, Record.written_wrote]

section

variable (hout : host.stdoutFault = none) (hmode : o.mode = .print)

include hout hmode

theorem run_of_print (hread : input.Endures) :
    o.run host input = o.printed (.ofBytes input.bytes) :=
  run_of_printed (.path hmode) (Selection.read_of_endures hread) (host.takes_of_no_fault hout _)

/-- A run that reads a printed path prints it again, without the carriage return at its end. -/
theorem run_of_asLine (hread : input.Endures) (hpath : Selection.IsPath path)
    (hbytes : input.bytes = asLine path) :
    Selection.read input = (.ok (.bare (lineText path [newline])), []) ∧
      o.run host input = o.printed (.bare (lineText path [newline])) := by
  rw [Selection.read_of_endures hread, run_of_print hout hmode hread, hbytes,
    hpath.ofBytes_asLine]
  exact ⟨rfl, rfl⟩

end

/-! ## Chains of runs -/

/-- What the runs of a chain read: the first one the input, and each later one what the run before it
has written, in any pieces. The runs are counted from zero. -/
inductive Chain (host : Host) (o : Opening) (input : Input) : Nat → Input → Prop where
  | first : Chain host o input 0 input
  | next {n : Nat} {before later : Input} : Chain host o input n before → later.Endures →
      later.bytes = (o.run host before).written → Chain host o input (n + 1) later

theorem exists_chain (host : Host) (o : Opening) (input : Input) (n : Nat) :
    ∃ later, Chain host o input n later := by
  induction n with
  | zero => exact ⟨input, .first⟩
  | succ n ih =>
      obtain ⟨before, hbefore⟩ := ih
      refine ⟨[.data (o.run host before).written], .next hbefore (by simp [Input.Endures]) ?_⟩
      simp [Input.bytes]

/-- Along a chain the part before the carriage returns stays, and one of these is lost in each run
but the first, as long as there are any. -/
theorem Chain.run {later : Input} {k : Nat} (h : Chain host o input n later)
    (hout : host.stdoutFault = none) (hmode : o.mode = .print) (hread : input.Endures)
    (hends : EndsInReturns (Selection.ofBytes input.bytes).path stem k) :
    ∃ s, Selection.read later = (.ok s, []) ∧ o.run host later = o.printed s ∧
      Selection.IsPath s.path ∧ EndsInReturns s.path stem (k - n) ∧ (n ≠ 0 → s = .bare s.path) := by
  induction h with
  | first =>
      exact ⟨_, Selection.read_of_endures hread, run_of_print hout hmode hread,
        .path_ofBytes input.bytes, hends, fun hn => absurd rfl hn⟩
  | @next n before later _ hlater hbytes ih =>
      obtain ⟨s, -, hrun, hpath, hreturns, -⟩ := ih
      rw [hrun, written_printed] at hbytes
      obtain ⟨hagain, hprinted⟩ := run_of_asLine hout hmode hlater hpath hbytes
      exact ⟨_, hagain, hprinted, hpath.lineText, hreturns.lineText, fun _ => rfl⟩

/-- **Printing its own output again and again settles on the path without the carriage returns at its
end.** A run that reads what a run has printed selects it as a line without a delimiter, and prints
it again, or without one carriage return if it ends in one. So the output is as it was before exactly
from the run on that has lost the last of them. Of an empty input, the empty path is printed, and
that is then a line of its own. -/
theorem printing_settles (host : Host) (o : Opening) (input : Input)
    (hout : host.stdoutFault = none) (hmode : o.mode = .print) (hread : input.Endures) :
    ∃ (s : Selection) (stem : Bytes) (k : Nat),
      Selection.read input = (.ok s, []) ∧
      (o.run host input).written = s.path ++ [newline] ∧
      (∀ stem' k', EndsInReturns s.path stem' k' ↔ stem' = stem ∧ k' = k) ∧
      (∀ again : Input, again.Endures → again.bytes = (o.run host input).written →
        ∃ q, Selection.read again = (.ok (.bare q), []) ∧ o.run host again = o.printed (.bare q) ∧
          (s.path.getLast? ≠ some carriageReturn → q = s.path) ∧
          (s.path.getLast? = some carriageReturn → s.path = q ++ [carriageReturn])) ∧
      (input.bytes = [] → s = .empty ∧
        Selection.read [.data (o.run host input).written] = (.ok (.bare []), [])) ∧
      (∀ n, ∃ later, Chain host o input n later) ∧
      (∀ n later, Chain host o input n later →
        ∃ q, Selection.read later = (.ok q, []) ∧ (n ≠ 0 → q = .bare q.path) ∧
          q.path = stem ++ List.replicate (k - n) carriageReturn ∧
          o.run host later = o.printed q ∧ (o.run host later).written = q.path ++ [newline]) ∧
      ∀ n before later, Chain host o input n before → Chain host o input (n + 1) later →
        ((o.run host later).written = (o.run host before).written ↔ k ≤ n) ∧
          (k ≤ n → (o.run host before).written = stem ++ [newline]) := by
  obtain ⟨stem, k, hends⟩ := exists_endsInReturns (Selection.ofBytes input.bytes).path
  have hpath := Selection.IsPath.path_ofBytes input.bytes
  have hwritten : (o.run host input).written = asLine (Selection.ofBytes input.bytes).path := by
    rw [run_of_print hout hmode hread, written_printed]
  have hchain : ∀ n later, Chain host o input n later →
      ∃ q, Selection.read later = (.ok q, []) ∧ (n ≠ 0 → q = .bare q.path) ∧
        q.path = stem ++ List.replicate (k - n) carriageReturn ∧
        o.run host later = o.printed q ∧ (o.run host later).written = q.path ++ [newline] := by
    intro n later h
    obtain ⟨q, hq, hrun, -, hreturns, hbare⟩ := h.run hout hmode hread hends
    exact ⟨q, hq, hbare, hreturns.path_eq, hrun, by rw [hrun, written_printed]; rfl⟩
  refine ⟨.ofBytes input.bytes, stem, k, Selection.read_of_endures hread, hwritten, ?_, ?_, ?_,
    exists_chain host o input, hchain, ?_⟩
  · intro stem' k'
    constructor
    · exact hends.unique
    · rintro ⟨rfl, rfl⟩
      exact hends
  · intro again hagain hbytes
    obtain ⟨hselected, hrun⟩ := run_of_asLine hout hmode hagain hpath (hbytes.trans hwritten)
    refine ⟨_, hselected, hrun, ?_, ?_⟩
    · intro hlast
      rw [lineText, if_neg (by simp [hlast])]
    · intro hlast
      rw [lineText, if_pos ⟨rfl, hlast⟩]
      obtain ⟨bs, hbs⟩ := List.getLast?_eq_some_iff.mp hlast
      rw [hbs, List.dropLast_concat]
  · intro hnil
    rw [hwritten, hnil]
    exact ⟨rfl, rfl⟩
  · intro n before later hbefore hlater
    obtain ⟨q, -, -, hq, -, hwas⟩ := hchain n before hbefore
    obtain ⟨q', -, -, hq', -, his⟩ := hchain (n + 1) later hlater
    rw [hwas, his, hq, hq']
    refine ⟨⟨?_, ?_⟩, ?_⟩
    · intro heq
      have hlength := congrArg List.length heq
      simp only [List.length_append, List.length_replicate, List.length_singleton] at hlength
      omega
    · intro hk
      rw [Nat.sub_eq_zero_of_le hk, Nat.sub_eq_zero_of_le (Nat.le_succ_of_le hk)]
    · intro hk
      rw [Nat.sub_eq_zero_of_le hk, List.replicate_zero, List.append_nil]

/-- A path with two carriage returns before its delimiter, behind another line. What is printed of it
arrives in pieces, and two runs later nothing changes any more. -/
theorem printing_settles_returns :
    let host : Host := ⟨none, fun _ => .error .noSuchFile⟩
    let o : Opening := ⟨none, .print, false⟩
    let input : Input := [.data (encode "b\na\r"), .data (encode "\r:1\r\n")]
    let again : Input :=
      [.data (encode "a\r"), .failure ⟨.interrupted, "again"⟩, .data (encode "\r\n")]
    o.run host input = o.printed (.matched (encode "a\r\r")) ∧
      Chain host o input 1 again ∧ o.run host again = o.printed (.bare (encode "a\r")) ∧
      (∀ later, Chain host o input 2 later → (o.run host later).written = encode "a\n") ∧
      ∀ before later, Chain host o input 2 before → Chain host o input 3 later →
        (o.run host later).written = (o.run host before).written := by
  intro host o input again
  have hread : input.Endures := by simp [input, Input.Endures]
  have hagain : again.Endures := by simp [again, Input.Endures]
  have hrun : o.run host input = o.printed (.matched (encode "a\r\r")) := rfl
  obtain ⟨s, stem, k, hs, hwritten, hends, hstep, -, -, hchain, hsettled⟩ :=
    printing_settles host o input rfl rfl hread
  have hselected : Selection.read input = (.ok (.matched (encode "a\r\r")), []) := rfl
  cases hs.symm.trans hselected
  obtain ⟨rfl, rfl⟩ := (hends (encode "a") 2).mp ⟨rfl, by decide⟩
  obtain ⟨q, -, hprinted, -, hdropped⟩ := hstep again hagain rfl
  have hq : encode "a\r" ++ [carriageReturn] = q ++ [carriageReturn] := hdropped rfl
  obtain rfl := List.append_cancel_right hq
  refine ⟨hrun, .next .first hagain rfl, hprinted, ?_, ?_⟩
  · intro later hlater
    obtain ⟨q, -, -, hq, -, hlast⟩ := hchain 2 later hlater
    rw [hlast, hq]
    rfl
  · intro before later hbefore hlater
    exact (hsettled 2 before later hbefore hlater).1.mpr (Nat.le_refl 2)

end Opening

end LastMatch
