import NumericScript.Proofs.Checked.Run
import NumericScript.Proofs.Session.Passage

/-! # Limits on instructions

Where the settings limit the number of instructions, every command comes to an end, whatever jumps,
calls and labels the code has.  The counter alone does not show it, since labels are passed without
being counted: between two counted instructions a machine can pass the labels behind the first once.

* `Machine.stepsLeft`: a number that every step lowers.
* `Session.exists_run`: so a session that is let run comes to rest.
* `Session.perform_bounded`: how far commands can come, and when they abort. -/

namespace NumericScript

variable {image : Image} {limit : Nat}

/-! ### Steps under a limit -/

namespace Machine

variable {m m' : Machine}

theorem overLimit_eq_none_iff (hl : image.settings.maxSteps = some limit) (m : Machine) :
    overLimit image.settings m = none ↔ m.executed ≤ limit := by
  simp [overLimit, hl]

/-- Whether a machine is about to execute an instruction that does what it says, and does not only
find out that there were enough. -/
def takesEffect (image : Image) (m : Machine) : Bool :=
  image.acts m && (overLimit image.settings { m with executed := m.executed + 1 }).isNone

theorem executed_lt_of_takesEffect (hl : image.settings.maxSteps = some limit)
    (h : m.takesEffect image = true) : m.executed < limit := by
  unfold takesEffect at h
  rw [Bool.and_eq_true, Option.isNone_iff_eq_none, overLimit_eq_none_iff hl] at h
  exact h.2

/-- At most so many steps can follow: for each instruction that may still be executed the labels of
the code can be passed once, and those behind the present position before them. -/
def stepsLeft (image : Image) (limit : Nat) (m : Machine) : Nat :=
  (limit + 1 - m.executed) * (image.instrs.size + 1) + (image.instrs.size - m.pc)

theorem stepsLeft_lt (image : Image) (limit : Nat) (m : Machine) :
    m.stepsLeft image limit < (limit + 2) * (image.instrs.size + 1) := by
  have hle : (limit + 1 - m.executed) * (image.instrs.size + 1) ≤
      (limit + 1) * (image.instrs.size + 1) := Nat.mul_le_mul_right _ (Nat.sub_le _ _)
  rw [stepsLeft, show limit + 2 = limit + 1 + 1 from rfl, Nat.succ_mul]
  omega

/-- A machine that finds a number that does not fit stands at the call that overflows. -/
theorem overflows_of_step (h : m.step image = .faulted m' .overflow) :
    ∃ i, image.instrs[m'.pc]? = some i ∧ m'.Overflows i.op := by
  unfold step at h
  split at h
  · cases h
  rename_i i hi
  split at h
  · cases h
  unfold perform at h
  dsimp only at h
  rw [← noted] at h
  split at h
  · cases h
  · split at h <;> cases h
    exact ⟨i, by rw [pc_noted]; exact hi, execute_eq_overflow.1 (by assumption)⟩

end Machine

namespace Image

variable {p q : Point} {past : List Machine}

/-- What is executed in a run that goes on has taken effect. -/
theorem takesEffect_of_advance (h : image.advance p = .next q) (ha : image.acts p.machine = true) :
    p.machine.takesEffect image = true := by
  obtain ⟨i, hi⟩ := Option.isSome_iff_exists.1 ha
  obtain ⟨hi, hl⟩ := action?_eq_some.1 hi
  simp [Machine.takesEffect, ha, within_of_next h hi hl]

/-- A step past a label comes nearer to the end of the code, and one that is counted nearer to the
limit. -/
theorem stepsLeft_advance_lt (hl : image.settings.maxSteps = some limit)
    (h : image.advance p = .next q) :
    q.machine.stepsLeft image limit < p.machine.stepsLeft image limit := by
  have hexecuted := executed_of_advance h
  cases ha : image.acts p.machine with
  | true =>
    have hlt := Machine.executed_lt_of_takesEffect hl (takesEffect_of_advance h ha)
    rw [ha, if_pos rfl] at hexecuted
    -- The instruction pays for the whole code, so it does not matter where it goes on.
    have hleft : limit + 1 - p.machine.executed = limit + 1 - q.machine.executed + 1 := by omega
    rw [Machine.stepsLeft, Machine.stepsLeft, hleft, Nat.succ_mul]
    omega
  | false =>
    obtain ⟨-, rfl⟩ | ⟨i, hi, -⟩ := advance_cases h
    · obtain ⟨i, hi, -⟩ := advance_eq_next h
      obtain ⟨hpc, -⟩ := Array.getElem?_eq_some_iff.1 hi
      simp only [Machine.stepsLeft, Machine.next]
      omega
    · rw [acts, hi] at ha
      cases ha

theorem executed_le_of_passes {lines : List String} (hl : image.settings.maxSteps = some limit)
    (h : image.Passes (image.startPoint lines) past q) : q.machine.executed ≤ limit := by
  induction h with
  | refl => exact Nat.zero_le _
  | tail _ hadv ih =>
    rw [executed_of_advance hadv]
    split
    · exact Machine.executed_lt_of_takesEffect hl (takesEffect_of_advance hadv (by assumption))
    · exact ih

/-- A run executes no more instructions than its limit says, the one at hand among them. -/
theorem countP_takesEffect_le {lines : List String} (hl : image.settings.maxSteps = some limit)
    (h : image.Passes (image.startPoint lines) past q) :
    (q.machine :: past).countP (·.takesEffect image) ≤ limit := by
  have hle : past.countP (·.takesEffect image) ≤ past.countP image.acts :=
    List.countP_mono_left fun m _ hm => (Bool.and_eq_true_iff.1 hm).1
  have hcount : q.machine.executed = past.countP image.acts := by
    rw [executed_of_passes h]
    exact Nat.zero_add _
  rw [List.countP_cons]
  split
  · have hlt := Machine.executed_lt_of_takesEffect hl (by assumption)
    omega
  · have hle := executed_le_of_passes hl h
    omega

end Image

/-! ### Commands -/

namespace Session

variable {s t r : Session} {fuel : Nat} {budget : Option Nat} {command : Command}

/-- A session comes to rest before its machine has taken all steps that it can take. -/
theorem exists_drive (hl : image.settings.maxSteps = some limit) (budget : Option Nat)
    (h : s.machine.stepsLeft image limit < fuel) : ∃ r, drive image fuel budget s = some r := by
  induction fuel generalizing budget s with
  | zero => cases h
  | succ fuel ih =>
    rw [drive]
    split
    · exact ⟨_, rfl⟩
    dsimp only
    split
    · rename_i hrun
      obtain ⟨-, m, hstep, hturn⟩ := turn_of_running hrun
      have hadv : image.advance ⟨s.machine, []⟩ = .next ⟨m, []⟩ := by simp [Image.advance, hstep]
      have hlt := Image.stepsLeft_advance_lt hl hadv
      rw [hturn]
      exact ih _ (Nat.lt_of_lt_of_le hlt (Nat.le_of_lt_succ h))
    · exact ⟨_, rfl⟩

theorem exists_run (hl : image.settings.maxSteps = some limit) (s : Session)
    (budget : Option Nat) : ∃ r, ∀ fuel, (limit + 2) * (image.instrs.size + 1) ≤ fuel →
      s.run image fuel budget = some r := by
  by_cases hs : s.status.canRun = true
  · obtain ⟨r, hr⟩ := @exists_drive image limit { s with status := .running } _ hl budget
      (Machine.stepsLeft_lt image limit s.machine)
    refine ⟨r, fun fuel hfuel => ?_⟩
    rw [Session.run, if_pos hs]
    exact drive_mono hr hfuel
  · exact ⟨s, fun fuel _ => by rw [Session.run, if_neg hs]⟩

theorem exists_perform (hl : image.settings.maxSteps = some limit) (s : Session)
    (command : Command) : ∃ r, ∀ fuel, (limit + 2) * (image.instrs.size + 1) ≤ fuel →
      s.perform image fuel command = some r := by
  cases command with
  | resume => exact exists_run hl s none
  | runSteps budget => exact exists_run hl s (some budget)
  | step mode =>
    by_cases hs : s.status.canStep = true
    · obtain ⟨r, hr⟩ := exists_run hl
        { s with stepping := some ⟨mode, s.machine.depth⟩, resumeAt := some s.machine.pc } none
      exact ⟨r, fun fuel hfuel => (if_pos hs).trans (hr fuel hfuel)⟩
    · exact ⟨s, fun fuel _ => if_neg hs⟩
  | provideInput line =>
    change ∃ r, ∀ fuel, _ → s.provideInput image fuel line = some r
    unfold Session.provideInput
    split
    · split
      · exact exists_run hl _ none
      · exact ⟨_, fun _ _ => rfl⟩
    · exact ⟨s, fun _ _ => rfl⟩
  | _ => exact ⟨_, fun _ _ => rfl⟩

theorem overflows_of_run (h : s.run image fuel budget = some r)
    (hr : r.status = .halted .aborted) : s.status = .halted .aborted ∨
      ∃ i, image.instrs[r.machine.pc]? = some i ∧ r.machine.Overflows i.op := by
  rw [Session.run] at h
  split at h
  · obtain ⟨past, t, ht, ⟨rfl, hrest⟩ | ⟨-, rfl⟩⟩ := exists_goesOn_of_drive h rfl
    · obtain ⟨reason, -, hturn⟩ | ⟨-, hturn, hstop⟩ := turn_cases (by rw [ht.eq]) hrest
      · rw [hturn] at hr
        cases hr
      · rw [hturn] at hr ⊢
        rw [machine_record]
        cases ho : t.machine.step image with
        | running m => exact absurd ho (hstop m)
        | finished m => rw [ho] at hr; cases hr
        | awaiting m dest ty => rw [ho] at hr; cases hr
        | faulted m f =>
          rw [ho] at hr
          obtain rfl := eq_overflow_of_fault hr
          exact .inr (Machine.overflows_of_step ho)
    · cases hr
  · cases h
    exact .inl hr

/-- A command aborts a session only at a call that overflows. -/
theorem overflows_of_perform (h : s.perform image fuel command = some r)
    (hr : r.status = .halted .aborted) : s.status = .halted .aborted ∨
      ∃ i, image.instrs[r.machine.pc]? = some i ∧ r.machine.Overflows i.op := by
  obtain ⟨-, hstatus⟩ | ⟨t, budget, -, hstatus, -, hrun⟩ | ⟨dest, ty, line, v, -, -, hrun⟩ |
    ⟨-, -, hne⟩ := perform_cases h
  · exact .inl (hstatus ▸ hr)
  · exact hstatus ▸ overflows_of_run hrun hr
  · exact .inr ((overflows_of_run hrun hr).resolve_left nofun)
  · exact absurd hr hne

/-- Code that goes round a loop of a label and an instruction for ever. -/
def spinning : Code where
  instrs := [⟨.label (.local 0), 1⟩, ⟨.print (.const (.int 1)) false, 1⟩, ⟨.jump (.local 0), 1⟩]
  functions := []

/-- The code of `print lcm(-9223372036854775807 - 1, 7)`. -/
def overflowing : Code where
  instrs := [⟨.param (.const (.int Int64.minValue)), 1⟩, ⟨.param (.const (.int 7)), 1⟩,
    ⟨.call (.builtin .lcm) 2, 1⟩, ⟨.copy (.temp 2) .returned, 1⟩,
    ⟨.print (.place (.temp 2)) true, 1⟩, ⟨.halt, 1⟩]
  functions := []

end Session

end NumericScript
