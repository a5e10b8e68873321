import LastMatch.Selection

/-!
# Reading streams to their end

What a reader gets from a stream depends on the bytes that arrive before the first failure that is
not an interruption, and on nothing else: not on how they are cut into pieces.

* `Endures` — every failure in the stream is an interruption;
* `BreaksAt` — the reading breaks off at another failure, with some events still to come.

A stream does one or the other (`endures_or_breaksAt`), and what is read of it follows from which.
-/

namespace LastMatch.Input

/-- Every failure in the stream is an interruption, so the stream is read to its end. -/
def Endures (input : Input) : Prop := ∀ f, ReadEvent.failure f ∈ input → f.kind = .interrupted

/-- The reading breaks off at a failure: it is the first one that is not an interruption, and the
events behind it are still to come. -/
def BreaksAt (input : Input) (f : ReadFailure) (rest : Input) : Prop :=
  ∃ before : Input, before.Endures ∧ f.kind ≠ .interrupted ∧ input = before ++ .failure f :: rest

/-- All the bytes of a stream. -/
def bytes (input : Input) : Bytes :=
  input.flatMap fun | .data bs => bs | .failure _ => []

variable {σ : Type} {before input rest : Input} {bs : Bytes} {f : ReadFailure}

theorem endures_nil : Endures [] := by simp [Endures]

theorem endures_data_cons : Endures (.data bs :: rest) ↔ rest.Endures := by simp [Endures]

theorem endures_failure_cons :
    Endures (.failure f :: rest) ↔ f.kind = .interrupted ∧ rest.Endures := by simp [Endures]

instance Endures.decidable : (input : Input) → Decidable input.Endures
  | [] => isTrue endures_nil
  | .data _ :: rest =>
    have := Endures.decidable rest
    decidable_of_iff _ endures_data_cons.symm
  | .failure _ :: rest =>
    have := Endures.decidable rest
    decidable_of_iff _ endures_failure_cons.symm

@[simp] theorem bytes_data_cons : bytes (.data bs :: rest) = bs ++ rest.bytes := rfl

@[simp] theorem bytes_failure_cons : bytes (.failure f :: rest) = rest.bytes := rfl

/-- What breaks off still breaks off behind events that endure. -/
theorem BreaksAt.append (h : input.BreaksAt f rest) (hbefore : before.Endures) :
    (before ++ input).BreaksAt f rest := by
  obtain ⟨middle, hmiddle, hf, rfl⟩ := h
  refine ⟨before ++ middle, ?_, hf, by simp⟩
  intro g hg
  exact (List.mem_append.mp hg).elim (hbefore g) (hmiddle g)

theorem endures_or_breaksAt (input : Input) :
    input.Endures ∨ ∃ f rest, input.BreaksAt f rest := by
  induction input with
  | nil => exact .inl endures_nil
  | cons e events ih =>
      cases e with
      | data bs =>
          rcases ih with h | ⟨f, rest, h⟩
          · exact .inl (endures_data_cons.mpr h)
          · exact .inr ⟨f, rest, h.append (endures_data_cons.mpr endures_nil)⟩
      | failure g =>
          by_cases hg : g.kind = .interrupted
          · rcases ih with h | ⟨f, rest, h⟩
            · exact .inl (endures_failure_cons.mpr ⟨hg, h⟩)
            · exact .inr ⟨f, rest, h.append (endures_failure_cons.mpr ⟨hg, endures_nil⟩)⟩
          · exact .inr ⟨g, events, [], endures_nil, hg, rfl⟩

/-- Events that endure do to the reading what their bytes do. -/
theorem readWith_append (h : before.Endures) (step : σ → UInt8 → σ) (s : σ) :
    (before ++ input).readWith step s = input.readWith step (before.bytes.foldl step s) := by
  induction before generalizing s with
  | nil => rfl
  | cons e before ih =>
      cases e with
      | data bs =>
          rw [List.cons_append, readWith, ih (endures_data_cons.mp h), bytes_data_cons,
            List.foldl_append]
      | failure f =>
          obtain ⟨hf, hbefore⟩ := endures_failure_cons.mp h
          rw [List.cons_append, readWith, if_pos hf, ih hbefore, bytes_failure_cons]

theorem readWith_of_endures (h : input.Endures) (step : σ → UInt8 → σ) (s : σ) :
    input.readWith step s = (.ok (input.bytes.foldl step s), []) := by
  have happend : (input ++ []).readWith step s = _ := readWith_append h step s
  rw [List.append_nil] at happend
  exact happend

theorem readWith_of_breaksAt (h : input.BreaksAt f rest) (step : σ → UInt8 → σ) (s : σ) :
    input.readWith step s = (.error f, rest) := by
  obtain ⟨before, hbefore, hf, rfl⟩ := h
  rw [readWith_append hbefore, readWith, if_neg hf]

end LastMatch.Input

namespace LastMatch

variable {input rest : Input} {f : ReadFailure}

/-- The last line of the bytes of a stream. -/
def lastLineOf (bs : Bytes) : Option Bytes :=
  (bs.foldl LineCursor.step LineCursor.start).lastLine

theorem lastLine_of_endures (h : input.Endures) :
    lastLine input = (.ok (lastLineOf input.bytes), []) := by
  rw [lastLine, Input.readWith_of_endures h]
  rfl

theorem lastLine_of_breaksAt (h : input.BreaksAt f rest) : lastLine input = (.error f, rest) := by
  rw [lastLine, Input.readWith_of_breaksAt h]
  rfl

namespace Selection

/-- The selection from the bytes of a stream. -/
def ofBytes (bs : Bytes) : Selection := ofLine (lastLineOf bs)

theorem read_of_endures (h : input.Endures) : read input = (.ok (ofBytes input.bytes), []) := by
  rw [read, lastLine_of_endures h]
  rfl

theorem read_of_breaksAt (h : input.BreaksAt f rest) : read input = (.error f, rest) := by
  rw [read, lastLine_of_breaksAt h]
  rfl

/-- A selection is made of all the bytes of a stream that is read to its end. -/
theorem read_eq_ok_iff {s : Selection} :
    read input = (.ok s, rest) ↔ input.Endures ∧ s = ofBytes input.bytes ∧ rest = [] := by
  constructor
  · intro hs
    rcases input.endures_or_breaksAt with hread | ⟨f, rest', hbreaks⟩
    · cases (read_of_endures hread).symm.trans hs
      exact ⟨hread, rfl, rfl⟩
    · cases (read_of_breaksAt hbreaks).symm.trans hs
  · rintro ⟨hread, rfl, rfl⟩
    exact read_of_endures hread

end Selection

end LastMatch
