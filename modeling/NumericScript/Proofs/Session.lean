import NumericScript.Proofs.Step

/-! # What sessions keep

A session comes to rest after a sequence of turns, so what every turn keeps holds when it comes
to rest, whatever the host does.

* `Machine.step_eq_running` and the like: what a step does, whatever the settings.
* `Session.drive_keeps`: what every turn and every pause keeps. -/

namespace NumericScript

namespace Machine

variable {image : Image} {m m' : Machine}

/-! ### Steps -/

/-- A step that lets the machine go on passes a label or executes an operation. -/
theorem step_eq_running (h : m.step image = .running m') : ∃ i, image.instrs[m.pc]? = some i ∧
    (i.op.label?.isSome ∧ m' = m.next ∨
      i.op.label? = none ∧ Goes image (m.noted i.line) i.op m') := by
  unfold step at h
  split at h
  · cases h
  rename_i i hi
  refine ⟨i, hi, ?_⟩
  split at h
  · rename_i hl
    cases h
    exact .inl ⟨hl, rfl⟩
  rename_i hl
  refine .inr ⟨by simpa using hl, ?_⟩
  unfold perform at h
  dsimp only at h
  split at h
  · cases h
  · split at h <;> cases h
    rename_i hgo
    exact goes_of_execute hgo

/-- A step that asks for input executes an operation that does. -/
theorem step_eq_awaiting {dest : Place} {ty : Ty} (h : m.step image = .awaiting m' dest ty) :
    ∃ i, image.instrs[m.pc]? = some i ∧ i.op = .input dest ty ∧ m' = m.noted i.line := by
  unfold step at h
  split at h
  · cases h
  rename_i i hi
  refine ⟨i, hi, ?_⟩
  split at h
  · cases h
  unfold perform at h
  dsimp only at h
  split at h
  · cases h
  · split at h <;> cases h
    rename_i hawait
    exact ⟨eq_input_of_await hawait, rfl⟩

/-- A step that ends the program only notes the line of its instruction, if there is one. -/
theorem step_eq_finished (h : m.step image = .finished m') :
    m' = m ∨ ∃ line, m' = m.noted line := by
  unfold step at h
  split at h
  · cases h
    exact .inl rfl
  split at h
  · cases h
  unfold perform at h
  dsimp only at h
  split at h
  · cases h
  · split at h <;> cases h
    exact .inr ⟨_, rfl⟩

/-- A step that faults only counts its instruction and perhaps notes its line. -/
theorem step_eq_faulted {f : Fault} (h : m.step image = .faulted m' f) :
    m' = { m with executed := m.executed + 1 } ∨ ∃ line, m' = m.noted line := by
  unfold step at h
  split at h
  · cases h
  split at h
  · cases h
  unfold perform at h
  dsimp only at h
  split at h
  · cases h
    exact .inl rfl
  · split at h <;> cases h
    exact .inr ⟨_, rfl⟩

/-! ### Output -/

@[simp] theorem output_write (m : Machine) (p : Place) (v : Value) :
    (m.write p v).output = m.output := by
  rcases p with t | ⟨slot, storage⟩
  · simp [write]
  · cases storage <;> simp [write]

/-- An operation prints after what is printed already. -/
theorem Goes.output {op : Op} (h : Goes image m op m') : ∃ more, m'.output = m.output ++ more := by
  cases h with
  | write => exact ⟨"", by simp [Machine.next]⟩
  | @print o newline v h => exact ⟨v.text ++ separator newline, by simp [String.append_assoc]⟩
  | _ => exact ⟨"", by simp [Machine.next]⟩

theorem output_of_awaiting {dest : Place} {ty : Ty} (h : m.step image = .awaiting m' dest ty) :
    m'.output = m.output := by
  obtain ⟨i, -, -, rfl⟩ := step_eq_awaiting h
  exact output_noted m i.line

theorem output_of_finished (h : m.step image = .finished m') : m'.output = m.output := by
  obtain rfl | ⟨line, rfl⟩ := step_eq_finished h
  · rfl
  · exact output_noted m line

theorem output_of_faulted {f : Fault} (h : m.step image = .faulted m' f) :
    m'.output = m.output := by
  obtain rfl | ⟨line, rfl⟩ := step_eq_faulted h
  · rfl
  · exact output_noted m line

end Machine

open Machine

namespace Image

variable {image : Image} {p q : Point}

/-- A run prints after what is printed already. -/
theorem output_of_next (h : image.advance p = .next q) :
    ∃ more, q.machine.output = p.machine.output ++ more := by
  unfold advance at h
  split at h
  · rename_i m hstep
    cases h
    obtain ⟨i, -, ⟨-, rfl⟩ | ⟨-, hgo⟩⟩ := step_eq_running hstep
    · exact ⟨"", by simp [Machine.next]⟩
    · simpa using hgo.output
  · cases h
  · cases h
  · rename_i m dest ty hstep
    split at h
    · cases h
    split at h <;> cases h
    exact ⟨"", by simp [Machine.next, output_of_awaiting hstep]⟩

/-- An outcome holds what is printed before the last step. -/
theorem output_of_done {o : RunOutcome} (h : image.advance p = .done o) :
    o.output = p.machine.output := by
  have hfault : ∀ m f u, (image.faultOutcome m f u).output = m.output := by
    intro m f u
    unfold faultOutcome
    split <;> rfl
  unfold advance at h
  split at h
  · cases h
  · rename_i hstep
    cases h
    exact output_of_finished hstep
  · rename_i hstep
    cases h
    exact (hfault _ _ _).trans (output_of_faulted hstep)
  · rename_i hstep
    split at h
    · cases h
      exact output_of_awaiting hstep
    split at h <;> cases h
    exact (hfault _ _ _).trans (output_of_awaiting hstep)

/-- An outcome holds what is printed at any moment before. -/
theorem Halts.output {o : RunOutcome} (h : image.Halts p o) :
    ∃ more, o.output = p.machine.output ++ more := by
  induction h with
  | done h => exact ⟨"", by simp [output_of_done h]⟩
  | next h _ ih =>
    obtain ⟨first, hfirst⟩ := output_of_next h
    obtain ⟨more, hmore⟩ := ih
    exact ⟨first ++ more, by rw [hmore, hfirst, String.append_assoc]⟩

/-- A run that comes to an end does so from every point to which it comes. -/
theorem Halts.of_halts {o : RunOutcome} (h : image.Halts p o) (hpq : image.Reaches p q) :
    image.Halts q o := by
  induction hpq with
  | refl => exact h
  | tail _ hq ih =>
    cases ih with
    | done hd => rw [hq] at hd; cases hd
    | next hn ho => rw [hq] at hn; cases hn; exact ho

end Image

/-! ### Turns -/

namespace Session

variable {image : Image}

/-- What every turn of a running session keeps, and every pause where the number of instructions is
limited, holds when the session comes to rest. -/
theorem drive_keeps {P : Session → Prop} {fuel : Nat} {budget : Option Nat} {s r : Session}
    (hturn : ∀ s, s.status = .running → P s → P (s.turn image))
    (hpause : budget ≠ none → ∀ s, s.status = .running → P s →
      P { s with status := .paused .budget })
    (h : drive image fuel budget s = some r) (hs : s.status = .running) (hP : P s) : P r := by
  induction fuel generalizing budget s with
  | zero => cases h
  | succ fuel ih =>
    rw [drive] at h
    split at h
    · rename_i hb
      cases h
      exact hpause (by simp [hb]) s hs hP
    dsimp only at h
    split at h
    · rename_i hrun
      refine ih (fun hb => hpause ?_) h hrun (hturn s hs hP)
      simpa using hb
    · cases h
      exact hturn s hs hP

end Session

end NumericScript
