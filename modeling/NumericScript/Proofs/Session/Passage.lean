import NumericScript.Proofs.Session.Rest
import NumericScript.Proofs.Session.Transparent

/-! # The way of a session

A session that goes on takes turns until it has a reason to pause or its machine stops.  What its
machine goes through is a piece of a run, so wherever commands lead, the session stands at a machine
that some run passes.

* `Image.Passes`: the machines that a run passes on its way.
* `Image.executed_of_passes`: the machine counts the instructions that it executes there.
* `Session.GoesOn`: the turns of a session that does not pause, and `exists_goesOn_of_drive`: what
  driving a session comes to.
* `Session.Leads.exists_passes`: where a session stands, whatever commands have led to it. -/

namespace NumericScript

namespace Status

variable {s : Status}

theorem isAwaiting_of_isHalted (h : s.isHalted = true) : s.isAwaiting = false := by
  cases s <;> first | rfl | cases h

theorem canRun_of_isHalted (h : s.isHalted = true) : s.canRun = false := by
  cases s <;> first | rfl | cases h

theorem canRun_of_isAwaiting (h : s.isAwaiting = true) : s.canRun = false := by
  cases s <;> first | rfl | cases h

end Status

/-- The machine after a step. -/
def Machine.Outcome.machine : Machine.Outcome → Machine
  | .running m | .finished m | .awaiting m _ _ | .faulted m _ => m

namespace Machine

variable {image : Image} {m m' : Machine}

@[simp] theorem executed_modifyFrame (m : Machine) (f : Frame → Frame) :
    (m.modifyFrame f).executed = m.executed := by
  unfold modifyFrame
  split <;> rfl

@[simp] theorem executed_noted (m : Machine) (line : Nat) :
    (m.noted line).executed = m.executed + 1 := by
  simp [noted]

@[simp] theorem executed_write (m : Machine) (p : Place) (v : Value) :
    (m.write p v).executed = m.executed := by
  rcases p with t | ⟨slot, storage⟩
  · simp [write]
  · cases storage <;> simp [write]

theorem Goes.executed {op : Op} (h : Goes image m op m') : m'.executed = m.executed := by
  cases h <;> simp [next]

end Machine

/-! ### Runs -/

namespace Image

variable {image : Image} {p q r : Point}

/-- The instruction that a machine is about to execute.  Labels are passed and not executed. -/
def action? (image : Image) (m : Machine) : Option Instr :=
  (image.instrs[m.pc]?).filter (·.op.label?.isNone)

/-- Whether a machine is about to execute an instruction. -/
def acts (image : Image) (m : Machine) : Bool := (image.action? m).isSome

theorem action?_eq_some {m : Machine} {i : Instr} :
    image.action? m = some i ↔ image.instrs[m.pc]? = some i ∧ i.op.label? = none := by
  simp [action?, Option.filter_eq_some_iff]

/-- A run from `p` comes to `q`.  The machines that it passes on its way are those of `past`, the
last first. -/
inductive Passes (image : Image) (p : Point) : List Machine → Point → Prop where
  | refl : Passes image p [] p
  | tail {past : List Machine} {q r : Point} (hq : Passes image p past q)
      (h : image.advance q = .next r) : Passes image p (q.machine :: past) r

theorem Passes.trans {past later : List Machine} (h : image.Passes p past q)
    (h' : image.Passes q later r) : image.Passes p (later ++ past) r := by
  induction h' with
  | refl => exact h
  | tail _ hadv ih => exact ih.tail hadv

/-- A run goes on as the machine does, or with the value of the line that it reads. -/
theorem advance_eq_next_iff : image.advance p = .next q ↔
    (∃ m, p.machine.step image = .running m ∧ q = ⟨m, p.unread⟩) ∨
      ∃ m dest ty line rest v, p.machine.step image = .awaiting m dest ty ∧
        p.unread = line :: rest ∧ Value.ofInput line ty = .ok v ∧
        q = ⟨(m.write dest v).next, rest⟩ := by
  constructor
  · intro h
    unfold advance at h
    split at h
    · cases h
      exact .inl ⟨_, by assumption, rfl⟩
    · cases h
    · cases h
    · split at h
      · cases h
      · split at h
        · cases h
          exact .inr ⟨_, _, _, _, _, _, by assumption, by assumption, by assumption, rfl⟩
        · cases h
  · rintro (⟨m, hstep, rfl⟩ | ⟨m, dest, ty, line, rest, v, hstep, hunread, hv, rfl⟩)
    · simp [advance, hstep]
    · simp [advance, hstep, hunread, hv]

/-- Lines that come later do not matter. -/
theorem advance_append (h : image.advance p = .next q) (more : List String) :
    image.advance ⟨p.machine, p.unread ++ more⟩ = .next ⟨q.machine, q.unread ++ more⟩ := by
  rw [advance_eq_next_iff] at h ⊢
  obtain ⟨m, hstep, rfl⟩ | ⟨m, dest, ty, line, rest, v, hstep, hunread, hv, rfl⟩ := h
  · exact .inl ⟨m, hstep, rfl⟩
  · exact .inr ⟨m, dest, ty, line, rest ++ more, v, hstep, by simp [hunread], hv, rfl⟩

theorem Passes.append {past : List Machine} (h : image.Passes p past q) (more : List String) :
    image.Passes ⟨p.machine, p.unread ++ more⟩ past ⟨q.machine, q.unread ++ more⟩ := by
  induction h with
  | refl => exact .refl
  | tail _ hadv ih => exact ih.tail (advance_append hadv more)

/-- A run goes on past a label, or it counts an instruction, notes its line and does what it says,
or writes the value that it asks for. -/
theorem advance_cases (h : image.advance p = .next q) :
    (image.action? p.machine = none ∧ q = ⟨p.machine.next, p.unread⟩) ∨
      ∃ i, image.action? p.machine = some i ∧
        (Machine.Goes image (p.machine.noted i.line) i.op q.machine ∨
          ∃ dest ty v, i.op = .input dest ty ∧
            q.machine = ((p.machine.noted i.line).write dest v).next) := by
  cases hp : image.action? p.machine with
  | none =>
    obtain ⟨i, hi, -⟩ := advance_eq_next h
    have hl : i.op.label? ≠ none := fun hl => by
      rw [action?_eq_some.2 ⟨hi, hl⟩] at hp
      cases hp
    rw [advance_of_label hi (Option.isSome_iff_ne_none.2 hl)] at h
    cases h
    exact .inl ⟨rfl, rfl⟩
  | some i =>
    refine .inr ⟨i, rfl, ?_⟩
    obtain ⟨hi, hl⟩ := action?_eq_some.1 hp
    obtain ⟨j, hj, ⟨hlabel, -⟩ | ⟨m, hgo, rfl⟩ | ⟨dest, ty, line, rest, v, hop, -, -, rfl⟩⟩ :=
      advance_eq_next h <;> obtain rfl : i = j := Option.some.inj (hi.symm.trans hj)
    · rw [hl] at hlabel
      cases hlabel
    · exact .inl hgo
    · exact .inr ⟨dest, ty, v, hop, rfl⟩

theorem executed_of_advance (h : image.advance p = .next q) :
    q.machine.executed = p.machine.executed + if image.acts p.machine then 1 else 0 := by
  obtain ⟨hp, rfl⟩ | ⟨i, hp, hgo | ⟨dest, ty, v, -, hq⟩⟩ := advance_cases h
  · simp [acts, hp, Machine.next]
  · simp [acts, hp, hgo.executed]
  · simp [acts, hp, hq, Machine.next]

/-- The machine counts the instructions that it executes. -/
theorem executed_of_passes {past : List Machine} (h : image.Passes p past q) :
    q.machine.executed = p.machine.executed + past.countP image.acts := by
  induction h with
  | refl => rfl
  | tail _ hadv ih =>
    rw [executed_of_advance hadv, ih, List.countP_cons]
    omega

/-- Labels change neither frames nor the count. -/
theorem depth_of_passes {past : List Machine} (h : image.Passes p past q)
    (hpast : ∀ m ∈ past, image.acts m = false) : q.machine.depth = p.machine.depth := by
  induction h with
  | refl => rfl
  | @tail past q r _ hadv ih =>
    obtain ⟨hq, hpast⟩ := List.forall_mem_cons.1 hpast
    obtain ⟨-, rfl⟩ | ⟨i, hi, -⟩ := advance_cases hadv
    · exact ih hpast
    · rw [acts, hi] at hq
      cases hq

end Image

/-! ### Turns -/

namespace Session

variable {image : Image} {s t r : Session}

/-- The session `s` takes turns without a pause and is `t` after them, still running.  Its machine
passes the machines of `past`, the last first. -/
inductive GoesOn (image : Image) (s : Session) : List Machine → Session → Prop where
  | refl : GoesOn image s [] s
  | tail {past : List Machine} {t : Session} {m : Machine} (ht : GoesOn image s past t)
      (hp : t.pauseNow? image = none) (h : t.machine.step image = .running m) :
      GoesOn image s (t.machine :: past) { t with machine := m, resumeAt := none }

namespace GoesOn

variable {past : List Machine}

theorem head {m : Machine} (hp : s.pauseNow? image = none)
    (h : s.machine.step image = .running m)
    (ht : GoesOn image { s with machine := m, resumeAt := none } past t) :
    GoesOn image s (past ++ [s.machine]) t := by
  induction ht with
  | refl => exact .tail .refl hp h
  | tail _ hp' h' ih => exact ih.tail hp' h'

/-- Turns change the machine, and where the session does not pause again. -/
theorem eq (h : GoesOn image s past t) :
    t = { s with machine := t.machine, resumeAt := t.resumeAt } := by
  induction h with
  | refl => rfl
  | tail _ _ _ ih => rw [ih]

theorem resumeAt (h : GoesOn image s past t) (hpast : past ≠ []) : t.resumeAt = none := by
  cases h with
  | refl => exact absurd rfl hpast
  | tail => rfl

theorem passes (h : GoesOn image s past t) (lines : List String) :
    image.Passes ⟨s.machine, lines⟩ past ⟨t.machine, lines⟩ := by
  induction h with
  | refl => exact .refl
  | tail _ _ hstep ih => exact ih.tail (by simp [Image.advance, hstep])

end GoesOn

/-- A session pauses before an instruction for which there is a reason, but not where it has just
paused. -/
theorem pauseNow?_eq (s : Session) : s.pauseNow? image =
    if s.resumeAt = some s.machine.pc then none
    else (image.action? s.machine).bind fun i => s.pauseReason? i.line := by
  unfold pauseNow? Image.action?
  cases image.instrs[s.machine.pc]? with
  | none => simp
  | some i => cases hl : i.op.label? <;> simp [Option.filter, hl]

/-- A session that still runs after a turn has not paused, and its machine has taken a step. -/
theorem turn_of_running (h : (s.turn image).status = .running) : s.pauseNow? image = none ∧
    ∃ m, s.machine.step image = .running m ∧
      s.turn image = { s with machine := m, resumeAt := none } := by
  unfold turn at h ⊢
  cases hp : s.pauseNow? image with
  | some reason => rw [hp] at h; cases h
  | none =>
    rw [hp] at h
    dsimp only at h ⊢
    cases hstep : s.machine.step image with
    | running m => exact ⟨rfl, m, rfl, rfl⟩
    | finished m => rw [hstep] at h; cases h
    | awaiting m dest ty => rw [hstep] at h; cases h
    | faulted m f =>
      rw [hstep] at h
      have hover := @status_fault image { s with machine := m, resumeAt := none } f
      rw [show (fault image { s with machine := m, resumeAt := none } f).status = .running
        from h] at hover
      cases hover

/-- Driving a session is turns without a pause and a last turn in which it comes to rest, unless its
budget ends first. -/
theorem exists_goesOn_of_drive {fuel : Nat} {budget : Option Nat}
    (h : drive image fuel budget s = some r) (hs : s.status = .running) :
    ∃ past t, GoesOn image s past t ∧
      (r = t.turn image ∧ r.status ≠ .running ∨
        budget ≠ none ∧ r = { t with status := .paused .budget }) := by
  induction fuel generalizing budget s with
  | zero => cases h
  | succ fuel ih =>
    rw [drive] at h
    split at h
    · rename_i hb
      cases h
      exact ⟨[], s, .refl, .inr ⟨by simp [hb], rfl⟩⟩
    dsimp only at h
    split at h
    · rename_i hrun
      obtain ⟨hp, m, hstep, hturn⟩ := turn_of_running hrun
      rw [hturn] at h
      obtain ⟨past, t, ht, hr⟩ := ih h hs
      refine ⟨past ++ [s.machine], t, .head hp hstep ht, hr.imp id fun hb => ⟨?_, hb.2⟩⟩
      simpa using hb.1
    · cases h
      exact ⟨[], s, .refl, .inl ⟨rfl, by assumption⟩⟩

@[simp] theorem machine_record (s : Session) (o : Machine.Outcome) :
    (s.record image o).machine = o.machine := by
  cases o with
  | faulted m f => exact machine_fault _ f
  | _ => rfl

/-- In the last turn a session pauses where it is, or its machine takes a step and stops. -/
theorem turn_cases (hs : t.status = .running) (h : (t.turn image).status ≠ .running) :
    (∃ reason, t.pauseNow? image = some reason ∧ t.turn image = t.pauseFor reason) ∨
      t.pauseNow? image = none ∧ t.turn image = t.record image (t.machine.step image) ∧
        ∀ m, t.machine.step image ≠ .running m := by
  unfold turn at h ⊢
  cases hp : t.pauseNow? image with
  | some reason => exact .inl ⟨reason, rfl, rfl⟩
  | none =>
    refine .inr ⟨rfl, rfl, fun m hm => h ?_⟩
    rw [hp, hm]
    exact hs

/-! ### Commands -/

theorem eq_overflow_of_fault {f : Fault} (h : (s.fault image f).status = .halted .aborted) :
    f = .overflow := by
  unfold Session.fault at h
  split at h
  · assumption
  · cases h

/-- A command leaves the machine and the status as they are, or lets a session with the same machine
go on, with what it has read if it has asked for input, or it ends the session where it is. -/
theorem perform_cases {fuel : Nat} {command : Command} (h : s.perform image fuel command = some r) :
    (r.machine = s.machine ∧ r.status = s.status) ∨
      (∃ (t : Session) (budget : Option Nat), t.machine = s.machine ∧ t.status = s.status ∧
        s.status.canRun = true ∧ t.run image fuel budget = some r) ∨
      (∃ dest ty line v, s.status = .awaitingInput dest ty ∧ Value.ofInput line ty = .ok v ∧
        Session.run image fuel none
          { s with machine := (s.machine.write dest v).next, status := .running } = some r) ∨
      r.machine = s.machine ∧ r.status.isHalted = true ∧ r.status ≠ .halted .aborted := by
  have hsame : some s = some r → r.machine = s.machine ∧ r.status = s.status := by
    intro h
    cases h
    exact ⟨rfl, rfl⟩
  have hrun : ∀ {budget : Option Nat}, s.run image fuel budget = some r →
      (r.machine = s.machine ∧ r.status = s.status) ∨ s.status.canRun = true := by
    intro budget h
    by_cases hs : s.status.canRun = true
    · exact .inr hs
    · rw [Session.run, if_neg hs] at h
      exact .inl (hsame h)
  cases command with
  | addBreakpoint line | removeBreakpoint line =>
    cases h
    exact .inl ⟨rfl, rfl⟩
  | resume | runSteps budget =>
    exact (hrun h).imp id fun hs => .inl ⟨s, _, rfl, rfl, hs, h⟩
  | step mode =>
    change s.step image fuel mode = some r at h
    unfold Session.step at h
    split at h
    · rename_i hs
      exact .inr (.inl ⟨_, none, by rfl, by rfl, Status.canRun_of_canStep hs, h⟩)
    · exact .inl (hsame h)
  | requestPause =>
    cases h
    unfold Session.requestPause
    split <;> exact .inl ⟨rfl, rfl⟩
  | stop =>
    cases h
    unfold Session.stop
    split
    · exact .inl ⟨rfl, rfl⟩
    · exact .inr (.inr (.inr ⟨rfl, rfl, by simp⟩))
  | provideInput line =>
    change s.provideInput image fuel line = some r at h
    unfold Session.provideInput at h
    split at h
    · rename_i dest ty hs
      split at h
      · exact .inr (.inr (.inl ⟨dest, ty, line, _, hs, by assumption, h⟩))
      · rename_i hv
        cases h
        refine .inr (.inr (.inr ⟨machine_fault _ _, status_fault _ _, fun ha => ?_⟩))
        exact (OfValues.ofInput line ty).ne_overflow (eq_overflow_of_fault ha ▸ hv)
    · exact .inl (hsame h)
  | cancelInput =>
    cases h
    unfold Session.cancelInput
    split
    · exact .inr (.inr (.inr ⟨machine_fault _ _, rfl, by simp⟩))
    · exact .inl ⟨rfl, rfl⟩

/-! ### Where a session stands -/

/-- The session stands at the machine `m`: it goes on from there, or the machine has asked for input
there, or the session is over, before or after the step of the machine. -/
def StandsAt (image : Image) (m : Machine) (s : Session) : Prop :=
  match s.status with
  | .awaitingInput dest ty => m.step image = .awaiting s.machine dest ty
  | .halted _ => s.machine = m ∨ s.machine = (m.step image).machine
  | _ => s.machine = m

theorem standsAt_of_canRun {m : Machine} (h : s.status.canRun = true) :
    StandsAt image m s ↔ s.machine = m := by
  unfold StandsAt
  cases hs : s.status <;> first | rfl | (rw [hs] at h; cases h)

theorem standsAt_of_isHalted {m : Machine} (h : s.status.isHalted = true) :
    StandsAt image m s ↔ s.machine = m ∨ s.machine = (m.step image).machine := by
  unfold StandsAt
  cases hs : s.status <;> first | rfl | (rw [hs] at h; cases h)

/-- Only the machine and the status matter. -/
theorem StandsAt.of_eq {m : Machine} (h : StandsAt image m s) (hm : t.machine = s.machine)
    (hs : t.status = s.status) : StandsAt image m t := by
  unfold StandsAt at h ⊢
  rwa [hs, hm]

/-- A session that is over stands where it stood before. -/
theorem StandsAt.halt {m : Machine} (h : StandsAt image m s) (hm : t.machine = s.machine)
    (ht : t.status.isHalted = true) : StandsAt image m t := by
  rw [standsAt_of_isHalted ht, hm]
  unfold StandsAt at h
  split at h
  · exact .inr (by rw [h]; rfl)
  · exact h
  · exact .inl h

/-- A session stands where its machine takes the last step. -/
theorem standsAt_record (ht : ∀ m, t.machine.step image ≠ .running m) :
    StandsAt image t.machine (t.record image (t.machine.step image)) := by
  cases hstep : t.machine.step image with
  | running m => exact absurd hstep (ht m)
  | finished m => exact .inr (by rw [hstep]; rfl)
  | awaiting m dest ty => exact hstep
  | faulted m f =>
    refine (standsAt_of_isHalted (status_fault _ _)).2 (.inr ?_)
    rw [machine_fault, hstep]
    rfl

/-- A session that is let run comes to rest at a machine to which its own machine comes. -/
theorem exists_passes_of_run {fuel : Nat} {budget : Option Nat} (hs : s.status.canRun = true)
    (h : s.run image fuel budget = some r) : ∃ past m,
      image.Passes ⟨s.machine, []⟩ past ⟨m, []⟩ ∧ StandsAt image m r := by
  rw [Session.run, if_pos hs] at h
  obtain ⟨past, t, ht, ⟨rfl, hr⟩ | ⟨-, rfl⟩⟩ := exists_goesOn_of_drive h rfl
  · have hstatus : t.status = .running := by rw [ht.eq]
    refine ⟨past, t.machine, ht.passes [], ?_⟩
    obtain ⟨reason, -, hturn⟩ | ⟨-, hturn, hstep⟩ := turn_cases hstatus hr
    · rw [hturn]
      exact (standsAt_of_canRun rfl).2 rfl
    · rw [hturn]
      exact standsAt_record hstep
  · exact ⟨past, t.machine, ht.passes [], (standsAt_of_canRun rfl).2 rfl⟩

section

variable {lines : List String} {past : List Machine} {m : Machine}

/-- A session that is let run from where a run comes stands where that run comes. -/
theorem exists_passes_append {p : Point} {fuel : Nat} {budget : Option Nat}
    (hp : image.Passes p past ⟨s.machine, []⟩) (hs : s.status.canRun = true)
    (h : s.run image fuel budget = some r) :
    ∃ past m, image.Passes p past ⟨m, []⟩ ∧ StandsAt image m r := by
  obtain ⟨later, m, hlater, hm⟩ := exists_passes_of_run hs h
  exact ⟨_, m, hp.trans hlater, hm⟩

/-- A session that stands in a run stands in one after a command too, which has read the line that
was given as an answer. -/
theorem StandsAt.exists_passes {x : Machine} {fuel : Nat} {command : Command}
    (hm : StandsAt image m s) (hp : image.Passes ⟨x, lines⟩ past ⟨m, []⟩)
    (h : s.perform image fuel command = some r) : ∃ lines past m,
      image.Passes ⟨x, lines⟩ past ⟨m, []⟩ ∧ StandsAt image m r := by
  obtain ⟨hmachine, hstatus⟩ | ⟨t, budget, hmachine, hstatus, hcan, hrun⟩ |
    ⟨dest, ty, line, v, hs, hv, hrun⟩ | ⟨hmachine, hover, -⟩ := perform_cases h
  · exact ⟨lines, past, m, hp, hm.of_eq hmachine hstatus⟩
  · rw [← hstatus] at hcan
    have hm := (standsAt_of_canRun hcan).1 (hm.of_eq hmachine hstatus)
    exact ⟨lines, exists_passes_append (hm ▸ hp) hcan hrun⟩
  · have hstep : m.step image = .awaiting s.machine dest ty := by
      unfold StandsAt at hm
      rwa [hs] at hm
    have hadv : image.advance ⟨m, [line]⟩ = .next ⟨(s.machine.write dest v).next, []⟩ := by
      simp [Image.advance, hstep, hv]
    have hp : image.Passes ⟨x, lines ++ [line]⟩ (m :: past)
        ⟨(s.machine.write dest v).next, []⟩ := (hp.append [line]).tail hadv
    exact ⟨lines ++ [line], exists_passes_append hp rfl hrun⟩
  · exact ⟨lines, past, m, hp, hm.halt hmachine hover⟩

/-- Whatever commands lead on from a session, the session to which they lead stands in a run from
where the first one stands. -/
theorem StandsAt.exists_passes_of_leads (hm : StandsAt image m s) (h : Leads image s t) :
    ∃ lines past n, image.Passes ⟨m, lines⟩ past ⟨n, []⟩ ∧ StandsAt image n t := by
  induction h with
  | refl => exact ⟨[], [], m, .refl, hm⟩
  | tail _ hu ih =>
    obtain ⟨lines, past, n, hp, hn⟩ := ih
    exact hn.exists_passes hp hu

/-- Whatever commands have led to a session, it stands at a machine to which a run comes. -/
theorem Leads.exists_passes (h : Leads image (start image) s) : ∃ lines past m,
    image.Passes (image.startPoint lines) past ⟨m, []⟩ ∧ StandsAt image m s :=
  have hstart : StandsAt image image.start (start image) := (standsAt_of_canRun rfl).2 rfl
  hstart.exists_passes_of_leads h

end

end Session

end NumericScript
