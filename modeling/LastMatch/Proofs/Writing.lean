import LastMatch.Opening

/-!
# What standard output takes of a line

However a line goes through the buffer, the system takes all of it if it has room for that, and
otherwise as many bytes from its start as it has room for. Then the writing fails.

* `Stdout.bytes` are all the bytes written so far, whether they have been taken or wait.
* `Stdout.Reaches` says how the writing of some bytes can end.
* `Stdout.Puts` says that a part of the writing adds some bytes to those before. Parts that follow
  one another add theirs one after another (`Puts.andThen`).
* `writeLine_of_takes` and `writeLine_of_not_takes` say what becomes of a line.
-/

namespace LastMatch

namespace Stdout

variable {fault : Option StdoutFault} {out mid : Stdout} {bs cs : Bytes} {w v : Writing}

/-- All the bytes that have been written. -/
def bytes (out : Stdout) : Bytes := out.taken ++ out.waiting

/-- The system has taken no more than it has room for. -/
def Fits (fault : Option StdoutFault) (out : Stdout) : Prop :=
  ∀ f, fault = some f → out.taken.length ≤ f.room

/-- Where the writing of some bytes can lead: all of them are written, or there is no room for them
and the system has taken those from the start that it has room for. -/
inductive Reaches (fault : Option StdoutFault) (bs : Bytes) : Except String Unit × Stdout → Prop where
  | written {out : Stdout} : out.bytes = bs → out.Fits fault → Reaches fault bs (.ok (), out)
  | full {f : StdoutFault} {out : Stdout} : fault = some f → f.room < bs.length →
      out.taken = bs.take f.room → Reaches fault bs (.error f.reason, out)

/-- A part of the writing that adds some bytes to those written before. -/
def Puts (fault : Option StdoutFault) (w : Writing) (bs : Bytes) : Prop :=
  ∀ out : Stdout, out.Fits fault → Reaches fault (out.bytes ++ bs) (w.run.run out)

/-! ## Parts that follow one another -/

theorem run_andThen_of_ok (h : w.run.run out = (.ok (), mid)) :
    (w >>= fun _ => v).run.run out = v.run.run mid := by
  simp only [ExceptT.run_bind, StateT.run_bind, h]
  rfl

theorem run_andThen_of_error {reason : String} (h : w.run.run out = (.error reason, mid)) :
    (w >>= fun _ => v).run.run out = (.error reason, mid) := by
  simp only [ExceptT.run_bind, StateT.run_bind, h]
  rfl

/-- What leads on from all the bytes of the first part leads on from it. -/
theorem Reaches.andThen (h : Reaches fault bs (w.run.run out))
    (hv : ∀ mid : Stdout, w.run.run out = (.ok (), mid) → mid.bytes = bs → mid.Fits fault →
      Reaches fault (bs ++ cs) (v.run.run mid)) :
    Reaches fault (bs ++ cs) ((w >>= fun _ => v).run.run out) := by
  generalize hrun : w.run.run out = result at h
  cases h with
  | written hbytes hfits =>
      rw [run_andThen_of_ok hrun]
      exact hv _ hrun hbytes hfits
  | @full f mid hf hroom htaken =>
      rw [run_andThen_of_error hrun]
      refine .full hf ?_ ?_
      · rw [List.length_append]
        exact Nat.lt_add_right cs.length hroom
      · rw [htaken, List.take_append_of_le_length (Nat.le_of_lt hroom)]

theorem Puts.andThen (hw : Puts fault w bs) (hv : Puts fault v cs) :
    Puts fault (w >>= fun _ => v) (bs ++ cs) := by
  intro out hout
  rw [← List.append_assoc]
  refine (hw out hout).andThen fun mid _ hbytes hfits => ?_
  rw [← hbytes]
  exact hv mid hfits

/-! ## Handing bytes over -/

theorem run_handOver_of_room (h : ∀ f, fault = some f → out.taken.length + bs.length ≤ f.room) :
    (handOver fault bs).run.run out = (.ok (), { out with taken := out.taken ++ bs }) := by
  cases fault with
  | none => rfl
  | some f =>
      have hleft : bs.length ≤ f.room - out.taken.length := Nat.le_sub_of_add_le' (h f rfl)
      show (ite (f.room - out.taken.length < bs.length) (throw f.reason) (pure ()) : Writing).run.run
        ⟨out.taken ++ bs.take (f.room - out.taken.length), out.waiting⟩ = _
      rw [if_neg (Nat.not_lt.mpr hleft), List.take_of_length_le hleft]
      rfl

theorem run_handOver_of_no_room {f : StdoutFault} (hout : out.Fits fault) (hf : fault = some f)
    (h : f.room < out.taken.length + bs.length) :
    (handOver fault bs).run.run out =
      (.error f.reason, { out with taken := (out.taken ++ bs).take f.room }) := by
  subst hf
  have hroom : out.taken.length ≤ f.room := hout f rfl
  have hleft : f.room - out.taken.length < bs.length := Nat.sub_lt_left_of_lt_add hroom h
  show (ite (f.room - out.taken.length < bs.length) (throw f.reason) (pure ()) : Writing).run.run
    ⟨out.taken ++ bs.take (f.room - out.taken.length), out.waiting⟩ = _
  rw [if_pos hleft, List.take_append, List.take_of_length_le hroom]
  rfl

/-- With nothing in the buffer, bytes that are handed over follow those that have been taken. -/
theorem reaches_handOver (hwaiting : out.waiting = []) (hout : out.Fits fault) (bs : Bytes) :
    Reaches fault (out.bytes ++ bs) ((handOver fault bs).run.run out) ∧
      ∀ out', (handOver fault bs).run.run out = (.ok (), out') → out'.waiting = [] := by
  have hbytes : out.bytes = out.taken := by rw [bytes, hwaiting, List.append_nil]
  by_cases hroom : ∀ f, fault = some f → out.taken.length + bs.length ≤ f.room
  · rw [run_handOver_of_room hroom, hbytes]
    refine ⟨.written ?_ ?_, ?_⟩
    · rw [bytes, hwaiting, List.append_nil]
    · intro f hf
      rw [List.length_append]
      exact hroom f hf
    · rintro out' hrun
      cases hrun
      exact hwaiting
  · obtain ⟨f, hroom⟩ := Classical.not_forall.mp hroom
    obtain ⟨hf, hfull⟩ := Classical.not_imp.mp hroom
    rw [run_handOver_of_no_room hout hf (Nat.lt_of_not_le hfull), hbytes]
    refine ⟨.full hf ?_ rfl, ?_⟩
    · rw [List.length_append]
      exact Nat.lt_of_not_le hfull
    · rintro out' hrun
      cases hrun

/-- What the buffer holds has been written already. After a flush it holds nothing. -/
theorem reaches_flush (hout : out.Fits fault) :
    Reaches fault out.bytes ((flush fault).run.run out) ∧
      ∀ out', (flush fault).run.run out = (.ok (), out') → out'.waiting = [] := by
  have hempty : bytes ⟨out.taken, []⟩ ++ out.waiting = out.bytes := by
    rw [bytes, List.append_nil]
    rfl
  have hwaiting : waiting ⟨out.taken, []⟩ = [] := rfl
  rw [← hempty]
  exact reaches_handOver hwaiting hout out.waiting

theorem puts_flush : Puts fault (flush fault) [] := by
  intro out hout
  rw [List.append_nil]
  exact (reaches_flush hout).1

/-! ## Writing through the buffer -/

/-- Bytes follow those in the buffer. They are handed over only when it is empty. -/
theorem reaches_keep (hout : out.Fits fault) (hwaiting : capacity ≤ bs.length → out.waiting = []) :
    Reaches fault (out.bytes ++ bs) ((keep fault bs).run.run out) := by
  by_cases hlarge : capacity ≤ bs.length
  · rw [keep, if_pos hlarge]
    exact (reaches_handOver (hwaiting hlarge) hout bs).1
  · rw [keep, if_neg hlarge]
    exact .written (List.append_assoc ..).symm hout

theorem puts_hold (bs : Bytes) : Puts fault (hold fault bs) bs := by
  intro out hout
  show Reaches _ _ ((ite (capacity < out.waiting.length + bs.length)
    (flush fault >>= fun _ => keep fault bs) (keep fault bs)).run.run out)
  by_cases hfull : capacity < out.waiting.length + bs.length
  · rw [if_pos hfull]
    obtain ⟨hflush, hempty⟩ := reaches_flush hout
    refine hflush.andThen fun mid hrun hbytes hmid => ?_
    rw [← hbytes]
    exact reaches_keep hmid fun _ => hempty mid hrun
  · rw [if_neg hfull]
    -- bytes that fill the buffer alone leave no place for others
    refine reaches_keep hout fun hlarge => List.length_eq_zero_iff.mp ?_
    omega

theorem puts_passOn (bs : Bytes) : Puts fault (passOn fault bs) bs := by
  have h : Puts fault (passOn fault bs) (bs ++ []) := (puts_hold bs).andThen puts_flush
  rwa [List.append_nil] at h

theorem ended_append_unended (bs : Bytes) : ended bs ++ unended bs = bs := by
  rw [ended, unended, ← List.reverse_append, List.takeWhile_append_dropWhile, List.reverse_reverse]

theorem puts_write (bs : Bytes) : Puts fault (write fault bs) bs := by
  have hparts : Puts fault (write fault bs) (ended bs ++ unended bs) := by
    show Puts fault (ite (ended bs ≠ [])
      (passOn fault (ended bs) >>= fun _ => hold fault (unended bs)) (hold fault (unended bs))) _
    by_cases hnone : ended bs = []
    · rw [if_neg (not_not_intro hnone), hnone]
      exact puts_hold (unended bs)
    · rw [if_pos hnone]
      exact (puts_passOn (ended bs)).andThen (puts_hold (unended bs))
  rwa [ended_append_unended] at hparts

/-! ## A line -/

/-- What a line leads to. Nothing of a line that is written is left in the buffer. -/
theorem reaches_writeLine (fault : Option StdoutFault) (bs : Bytes) :
    Reaches fault (asLine bs) ((writeLine fault bs).run.run start) ∧
      ∀ out, (writeLine fault bs).run.run start = (.ok (), out) → out.waiting = [] := by
  have hputs : Puts fault (write fault bs >>= fun _ => write fault [newline]) (asLine bs) :=
    (puts_write bs).andThen (puts_write [newline])
  have hparts : writeLine fault bs =
      (write fault bs >>= fun _ => write fault [newline]) >>= fun _ => flush fault :=
    (bind_assoc ..).symm
  have hline : Reaches fault (asLine bs) _ := hputs start fun f _ => Nat.zero_le f.room
  rw [hparts]
  generalize hrun : (write fault bs >>= fun _ => write fault [newline]).run.run start = result
    at hline
  cases hline with
  | written hbytes hfits =>
      rw [run_andThen_of_ok hrun, ← hbytes]
      exact reaches_flush hfits
  | full hf hroom htaken =>
      rw [run_andThen_of_error hrun]
      exact ⟨.full hf hroom htaken, fun out hok => by cases hok⟩

end Stdout

variable {host : Host} {bs : Bytes}

theorem Host.takes_of_no_fault (h : host.stdoutFault = none) (bs : Bytes) : host.Takes bs := by
  intro f hf
  rw [h] at hf
  cases hf

/-- Standard output takes all of some bytes, or fails within them. -/
theorem Host.takes_or_fails (host : Host) (bs : Bytes) :
    host.Takes bs ∨ ∃ f, host.stdoutFault = some f ∧ f.room < bs.length := by
  by_cases h : host.Takes bs
  · exact .inl h
  · obtain ⟨f, h⟩ := Classical.not_forall.mp h
    obtain ⟨hf, hfull⟩ := Classical.not_imp.mp h
    exact .inr ⟨f, hf, Nat.lt_of_not_le hfull⟩

theorem Action.ofTaken_asLine (bs : Bytes) : ofTaken (asLine bs) = [wrote (asLine bs)] := by
  cases bs <;> rfl

theorem writeLine_of_run {result : Except String Unit} {out : Stdout}
    (h : (Stdout.writeLine host.stdoutFault bs).run.run .start = (result, out)) :
    writeLine host bs =
      (Action.ofTaken out.taken, (result.mapError .write).map fun _ => ⟨0, [], []⟩) := by
  rw [writeLine, h]

/-- A line for which there is room is written whole. -/
theorem writeLine_of_takes (h : host.Takes (asLine bs)) :
    writeLine host bs = ([.wrote (asLine bs)], .ok ⟨0, [], []⟩) := by
  obtain ⟨hreaches, hwaiting⟩ := Stdout.reaches_writeLine host.stdoutFault bs
  generalize hrun : (Stdout.writeLine host.stdoutFault bs).run.run .start = result at hreaches
  cases hreaches with
  | @written out hbytes _ =>
      rw [Stdout.bytes, hwaiting out hrun, List.append_nil] at hbytes
      rw [writeLine_of_run hrun, hbytes, Action.ofTaken_asLine]
      rfl
  | full hf hroom _ => exact absurd hroom (Nat.not_lt.mpr (h _ hf))

/-- Of any other line, what there is room for is written, and that is an error. -/
theorem writeLine_of_not_takes {f : StdoutFault} (hf : host.stdoutFault = some f)
    (h : f.room < (asLine bs).length) :
    writeLine host bs =
      (Action.ofTaken ((asLine bs).take f.room), .error (.write f.reason)) := by
  obtain ⟨hreaches, hwaiting⟩ := Stdout.reaches_writeLine host.stdoutFault bs
  generalize hrun : (Stdout.writeLine host.stdoutFault bs).run.run .start = result at hreaches
  cases hreaches with
  | @written out hbytes hfits =>
      rw [Stdout.bytes, hwaiting out hrun, List.append_nil] at hbytes
      exact absurd (hbytes ▸ hfits f hf) (Nat.not_le.mpr h)
  | full hf' _ htaken =>
      cases hf.symm.trans hf'
      rw [writeLine_of_run hrun, htaken]
      rfl

end LastMatch
