import LastMatch.Proofs.Requests
import LastMatch.Proofs.Runs

/-!
# Clusters and their letters

A cluster of letters says what its letters say one by one. The letters of a word are read as the
words of a command line are, from left to right, each on the reading that the one before has led to;
so a cluster can be cut behind any letter that takes no value, and nothing is left to tell the two
apart. This holds wherever options are read at all, which is everywhere but behind two hyphens
(`Reading.ended_of_run`).
-/

namespace LastMatch

open Utf8

/-- The words of a cluster that is cut behind each of its switches. -/
def Switch.apart (sw : List Switch) (tail : Bytes) : List Bytes :=
  sw.map (fun s => encode "-" ++ [s.letter.toUInt8]) ++ [encode "-" ++ tail]

namespace Reading

variable {r r' : Reading} {o : Opt} {v w ls : Bytes} {words : List Bytes} {b : UInt8}

/-! ## Only two hyphens end the options -/

theorem ended_of_accept {x : Reading × Option Refusal} (h : accept x = .ok r') :
    r'.ended = x.1.ended := by
  obtain ⟨r, _ | refusal⟩ := x
  · cases h
    rfl
  · cases h

theorem ended_of_accept_close (h : accept r.close = .ok r') : r'.ended = r.ended :=
  (ended_of_accept h).trans (ended_close r)

theorem ended_of_flag {full : Bool} (h : r.flag o full = .ok r') : r'.ended = r.ended := by
  obtain ⟨r₁, hclose, hgive⟩ := exists_of_bind_eq_ok h
  rw [← ended_of_accept_close hclose]
  cases o with
  | help | version => cases hgive
  | _ => exact (ended_of_accept hgive).trans (ended_give r₁ _)

theorem ended_of_attached (h : r.attached o v = .ok r') : r'.ended = r.ended := by
  obtain ⟨r₁, hclose, hassign⟩ := exists_of_bind_eq_ok h
  rw [← ended_of_accept_close hclose]
  exact (ended_of_accept hassign).trans (ended_assign r₁ o v)

theorem ended_of_openOption (h : r.openOption o = .ok r') : r'.ended = r.ended := by
  obtain ⟨r₁, hclose, hopen⟩ := exists_of_bind_eq_ok h
  have hkept := ended_of_accept_close hclose
  cases hopen
  exact hkept

theorem ended_of_letters (h : r.letters ls = .ok r') : r'.ended = r.ended := by
  induction ls generalizing r with
  | nil =>
      cases h
      rfl
  | cons b rest ih =>
      obtain ⟨o, ho⟩ := exists_of_letters h
      cases hvalue : o.takesValue with
      | false =>
          rw [letters_flag ho hvalue] at h
          obtain ⟨r₁, hflag, hrest⟩ := exists_of_bind_eq_ok h
          rw [ih hrest, ended_of_flag hflag]
      | true =>
          simp only [letters, ho, hvalue, if_true] at h
          cases rest with
          | nil => exact ended_of_openOption h
          | cons a value => exact ended_of_attached h

theorem ended_of_long {name : Bytes} {value : Option Bytes} (h : r.long name value = .ok r') :
    r'.ended = r.ended := by
  obtain ⟨o, rfl⟩ := exists_of_long h
  replace h := (long_eq o value).symm.trans h
  cases value with
  | none =>
      dsimp only at h
      split at h
      · exact ended_of_openOption h
      · exact ended_of_flag h
  | some v =>
      dsimp only at h
      split at h
      · exact ended_of_attached h
      · cases h

theorem ended_of_plain (h : r.plain w = .ok r') : r'.ended = r.ended := by
  unfold plain at h
  split at h
  · cases h
    rfl
  · cases h

/-- Behind any other word, options are still read. -/
theorem ended_of_step (hended : r.ended = false) (hw : w ≠ encode "--") (h : r.step w = .ok r') :
    r'.ended = false := by
  rw [step_eq hended] at h
  have hspelt := Word.spelt_ofBytes w
  generalize Word.ofBytes w = kind at h hspelt
  cases hspelt with
  | endOfOptions => exact absurd rfl hw
  | long | longValue => exact (ended_of_long h).trans hended
  | letters => exact (ended_of_letters h).trans hended
  | plain => exact (ended_of_plain h).trans hended

theorem ended_of_run (hended : r.ended = false) (hwords : encode "--" ∉ words)
    (h : words.foldlM step r = .ok r') : r'.ended = false := by
  induction words generalizing r with
  | nil =>
      cases h
      exact hended
  | cons w words ih =>
      rw [List.mem_cons, not_or] at hwords
      obtain ⟨r₁, hstep, hrest⟩ := foldlM_step_cons.mp h
      exact ih (ended_of_step hended (Ne.symm hwords.1) hstep) hwords.2 hrest

/-! ## A cluster and its words -/

theorem step_letters (hended : r.ended = false) (hb : b ≠ Word.hyphen) :
    r.step (encode "-" ++ b :: ls) = r.letters (b :: ls) := by
  rw [step_eq hended, Word.ofBytes_letters hb]

theorem letter_ne_hyphen (s : Switch) : s.letter.toUInt8 ≠ Word.hyphen := by
  cases s <;> decide

/-- The letter of a switch, as a word of its own. -/
theorem step_letter (hended : r.ended = false) (s : Switch) :
    r.step (encode "-" ++ [s.letter.toUInt8]) = r.flag s.opt false := by
  rw [step_letters hended (letter_ne_hyphen s), letters_switch]
  exact bind_pure _

theorem step_switches (hended : r.ended = false) (hb : b ≠ Word.hyphen) (sw : List Switch) :
    r.step (encode "-" ++ (Switch.letters sw ++ b :: ls)) =
      r.letters (Switch.letters sw ++ b :: ls) := by
  cases sw with
  | nil => exact step_letters hended hb
  | cons s sw => exact step_letters hended (letter_ne_hyphen s)

/-- The words of a cluster that is cut are read as its letters. The induction is on the switches,
and each of them leaves a reading in which options are still read. -/
theorem foldlM_apart (hended : r.ended = false) (hb : b ≠ Word.hyphen) (sw : List Switch) :
    (Switch.apart sw (b :: ls)).foldlM step r = r.letters (Switch.letters sw ++ b :: ls) := by
  induction sw generalizing r with
  | nil =>
      show (r.step (encode "-" ++ b :: ls) >>= pure) = r.letters (b :: ls)
      rw [bind_pure, step_letters hended hb]
  | cons s sw ih =>
      show (r.step (encode "-" ++ [s.letter.toUInt8]) >>= (Switch.apart sw (b :: ls)).foldlM step) =
        r.letters (s.letter.toUInt8 :: (Switch.letters sw ++ b :: ls))
      rw [step_letter hended, letters_switch]
      cases hflag : r.flag s.opt false with
      | error h => rfl
      | ok r₁ => exact ih ((ended_of_flag hflag).trans hended)

/-- In the middle of a command line. -/
theorem run_cluster (hended : r.ended = false) (hwords : encode "--" ∉ words)
    (hb : b ≠ Word.hyphen) (sw : List Switch) (later : List Bytes) :
    (words ++ (encode "-" ++ (Switch.letters sw ++ b :: ls)) :: later).foldlM step r =
      (words ++ (Switch.apart sw (b :: ls) ++ later)).foldlM step r := by
  rw [List.foldlM_append, List.foldlM_append]
  cases hrun : words.foldlM step r with
  | error h => rfl
  | ok r₁ =>
      have hended₁ : r₁.ended = false := ended_of_run hended hwords hrun
      show (r₁.step _ >>= later.foldlM step) = (Switch.apart sw (b :: ls) ++ later).foldlM step r₁
      rw [List.foldlM_append, foldlM_apart hended₁ hb, step_switches hended₁ hb]

end Reading

/-- **A cluster means its letters one by one.** Wherever options are read, a cluster can be cut
behind each switch that stands at its start: the request is the same, or the answer is, to the last
byte of what the whole program does. What is behind the switches can be any bytes: letters with a
value or without, in the same word or in the next, and what is no option at all. -/
theorem cluster_means_its_letters (name : Bytes) (words later : List Bytes) (sw : List Switch)
    (b : UInt8) (rest : Bytes) (hwords : encode "--" ∉ words) (hb : b ≠ '-'.toUInt8) :
    let cluster := encode "-" ++ (Switch.letters sw ++ b :: rest)
    let together := name :: (words ++ cluster :: later)
    let apart := name :: (words ++ (Switch.apart sw (b :: rest) ++ later))
    (∀ inherited, Request.parse together inherited = Request.parse apart inherited) ∧
    ∀ host env stdin, run host ⟨together, env, stdin⟩ = run host ⟨apart, env, stdin⟩ := by
  intro cluster together apart
  have hparse : ∀ inherited, Request.parse together inherited = Request.parse apart inherited := by
    intro inherited
    have hrun : (words ++ cluster :: later).foldlM Reading.step Reading.start =
        (words ++ (Switch.apart sw (b :: rest) ++ later)).foldlM Reading.step Reading.start :=
      Reading.run_cluster rfl hwords hb sw later
    show ((words ++ cluster :: later).foldlM Reading.step Reading.start >>= _) = _
    rw [hrun]
    rfl
  exact ⟨hparse, fun host env stdin => run_congr_commandLine (hparse _) rfl⟩

/-- A cluster behind an open option, with its value in the next word; and one that repeats a letter
before one that is none. -/
theorem cluster_means_its_letters_next :
    let together := ["grepedit", "--completions", "zsh", "-qpe", "vi"].map encode
    let apart := ["grepedit", "--completions", "zsh", "-q", "-p", "-e", "vi"].map encode
    let together' := ["grepedit", "-e", "vi", "-pp=", "-h"].map encode
    let apart' := ["grepedit", "-e", "vi", "-p", "-p", "-=", "-h"].map encode
    encode "--" ∉ ["--completions", "zsh"].map encode ∧
      Request.parse together none = .ok ⟨some "vi", true, false, true, some .zsh⟩ ∧
      Request.parse together none = Request.parse apart none ∧
      Request.parse together' none = .error (.refused (.repeated .print)) ∧
      Request.parse together' none = Request.parse apart' none := by
  intro together apart together' apart'
  have hwords : encode "--" ∉ ["--completions", "zsh"].map encode := by decide
  have hwords' : encode "--" ∉ ["-e", "vi"].map encode := by decide
  obtain ⟨hparse, -⟩ := cluster_means_its_letters (encode "grepedit") _ [encode "vi"]
    [.quiet, .print] 'e'.toUInt8 [] hwords (by decide)
  obtain ⟨hparse', -⟩ := cluster_means_its_letters (encode "grepedit") _ [encode "-h"]
    [.print, .print] '='.toUInt8 [] hwords' (by decide)
  exact ⟨hwords, rfl, hparse none, rfl, hparse' none⟩

end LastMatch
