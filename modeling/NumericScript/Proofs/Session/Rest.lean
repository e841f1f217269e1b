import NumericScript.Proofs.Fault
import NumericScript.Proofs.Rearrange
import NumericScript.Proofs.Session

/-! # Sessions at rest

Whatever commands a host gives, in whatever order and with whatever input, a session that has come
to rest is in one of few conditions.  It never rests while running; it asks for input exactly where
an instruction does; a step that was begun is over when it pauses; and it has reported a fault
exactly if it ended with one.  Once it is over nothing of it changes.

* `Session.Leads`: the sessions to which commands lead.
* `Session.AtRest`: what holds of a session at rest.
* `Session.leads_atRest`: that it does, and what commands never take back. -/

namespace NumericScript

namespace Status

theorem canRun_of_canStep {s : Status} (h : s.canStep = true) : s.canRun = true := by
  cases s <;> first | rfl | cases h

theorem canStep_of_canRun {s : Status} (hs : s ≠ .running) (h : s.canRun = true) :
    s.canStep = true := by
  cases s <;> first | exact absurd rfl hs | rfl | cases h

theorem isHalted_of_canRun {s : Status} (h : s.canRun = true) : s.isHalted = false := by
  cases s <;> first | rfl | cases h

end Status

namespace Session

variable {image : Image}

/-- Some commands lead from one session to another. -/
inductive Leads (image : Image) (s : Session) : Session → Prop where
  | refl : Leads image s s
  | tail {t u : Session} {command : Command} {fuel : Nat} (h : Leads image s t)
      (hu : t.perform image fuel command = some u) : Leads image s u

/-- What holds of a session at rest.  Which input it asks for belongs to its status. -/
structure AtRest (image : Image) (s : Session) : Prop where
  status : s.status ≠ .running
  input : ∀ dest ty, s.status = .awaitingInput dest ty →
    ∃ line, image.instrs[s.machine.pc]? = some ⟨.input dest ty, line⟩
  /-- No step is under way where the host could begin one. -/
  stepping : s.status.canStep = true → s.stepping = none
  reported : s.status = .halted .fault ∨ s.status = .halted .cancelled → ∃ d, s.diagnostics = [d]
  silent : s.status ≠ .halted .fault → s.status ≠ .halted .cancelled → s.diagnostics = []
  calls : s.machine.calls.length ≤ image.settings.maxCallDepth
  labels : ∀ d ∈ s.diagnostics, ∀ l, d.message ≠ (Fault.unknownLabel l).message

/-- What holds of a session that runs. -/
structure Going (image : Image) (s : Session) : Prop where
  silent : s.diagnostics = []
  calls : s.machine.calls.length ≤ image.settings.maxCallDepth

/-- What holds of a session that runs, or rests after it ran. -/
def Sane (image : Image) (s : Session) : Prop :=
  if s.status = .running then Going image s else AtRest image s

theorem sane_of_running {s : Session} (h : s.status = .running) :
    Sane image s ↔ Going image s := by rw [Sane, if_pos h]

theorem Sane.atRest {s : Session} (h : Sane image s) (hs : s.status ≠ .running) :
    AtRest image s := by rwa [Sane, if_neg hs] at h

theorem AtRest.sane {s : Session} (h : AtRest image s) : Sane image s := by
  rwa [Sane, if_neg h.status]

/-! ### Steps of the machine -/

section

variable {m m' : Machine}

theorem length_calls_modifyFrame (m : Machine) (f : Frame → Frame) :
    (m.modifyFrame f).calls.length = m.calls.length :=
  Nat.succ.inj (Machine.depth_modifyFrame m f)

@[simp] theorem length_calls_noted (m : Machine) (line : Nat) :
    (m.noted line).calls.length = m.calls.length :=
  length_calls_modifyFrame _ _

theorem length_calls_write (m : Machine) (p : Place) (v : Value) :
    (m.write p v).calls.length = m.calls.length := by
  rcases p with t | ⟨slot, storage⟩
  · exact length_calls_modifyFrame _ _
  · cases storage
    · rfl
    · exact length_calls_modifyFrame _ _

/-- A call is entered only where there is room for it. -/
theorem length_calls_of_goes {op : Op} (h : Machine.Goes image m op m')
    (hm : m.calls.length ≤ image.settings.maxCallDepth) :
    m'.calls.length ≤ image.settings.maxCallDepth := by
  cases h with
  | @write op d v he =>
    change (m.write d v).calls.length ≤ _
    rwa [length_calls_write]
  | user _ _ _ hdepth _ => exact hdepth
  | leave _ hc _ =>
    rw [hc] at hm
    exact Nat.le_of_succ_le hm
  | _ => exact hm

theorem length_calls_of_running (h : m.step image = .running m')
    (hm : m.calls.length ≤ image.settings.maxCallDepth) :
    m'.calls.length ≤ image.settings.maxCallDepth := by
  obtain ⟨i, -, ⟨-, rfl⟩ | ⟨-, hgo⟩⟩ := Machine.step_eq_running h
  · exact hm
  · exact length_calls_of_goes hgo (by simpa using hm)

theorem length_calls_of_faulted {f : Fault} (h : m.step image = .faulted m' f) :
    m'.calls.length = m.calls.length := by
  obtain rfl | ⟨line, rfl⟩ := Machine.step_eq_faulted h
  · rfl
  · simp

theorem length_calls_of_finished (h : m.step image = .finished m') :
    m'.calls.length = m.calls.length := by
  obtain rfl | ⟨line, rfl⟩ := Machine.step_eq_finished h
  · rfl
  · simp

/-- A machine that runs linked code finds every label. -/
theorem not_unknownLabel_of_step {c : Code} {settings : MachineSettings}
    (hl : Linked c.functions c.instrs) {f : Fault}
    (h : m.step (c.link settings) = .faulted m' f) (l : String) : f ≠ .unknownLabel l := by
  rintro rfl
  obtain ⟨limit, hf⟩ | ⟨i, hi, hblames⟩ := Machine.blames_of_step h
  · cases hf
  have hmem : i ∈ c.instrs := List.mem_of_getElem? (by simpa [Code.link] using hi)
  generalize hop : i.op = op at hblames
  cases hblames with
  | values h => cases h
  | target ht he =>
    obtain ⟨k, hk⟩ : ∃ k, (c.link settings).position _ = .ok k :=
      exists_position hl.distinct (hl.targets i hmem _ (hop ▸ ht))
    rw [hk] at he
    cases he
  | entry hf he =>
    have hfunction := (mem_functions hf).resolve_right (by simp)
    obtain ⟨k, hk⟩ : ∃ k, (c.link settings).position _ = .ok k :=
      exists_position hl.distinct (hl.entries _ hfunction)
    rw [hk] at he
    cases he

end

/-! ### What turns keep -/

/-- A session at rest after a fault. -/
theorem AtRest.fault {s : Session} {f : Fault} (hd : s.diagnostics = [])
    (hc : s.machine.calls.length ≤ image.settings.maxCallDepth)
    (hf : ∀ l, f ≠ .unknownLabel l) : AtRest image (s.fault image f) := by
  unfold Session.fault
  split
  · exact ⟨nofun, nofun, nofun, by simp, fun _ _ => hd, hc, by simp [hd]⟩
  · refine ⟨nofun, nofun, nofun,
      fun _ => ⟨.error .runtime f.message ((s.line? image).getD 0) 1, by simp [hd]⟩,
      fun h => absurd rfl h, hc, ?_⟩
    intro d hmem l hmsg
    simp only [hd, List.nil_append, List.mem_singleton] at hmem
    subst hmem
    obtain ⟨l', rfl⟩ := Fault.eq_unknownLabel_of_message hmsg
    exact hf l' rfl

section

variable {c : Code} {settings : MachineSettings}

theorem Going.turn (hl : Linked c.functions c.instrs) {s : Session} (hs : s.status = .running)
    (h : Going (c.link settings) s) : Sane (c.link settings) (s.turn (c.link settings)) := by
  unfold Session.turn
  split
  · exact AtRest.sane ⟨by simp [pauseFor], by simp [pauseFor], fun _ => rfl, by simp [pauseFor],
      fun _ _ => h.silent, h.calls, by simp [pauseFor, h.silent]⟩
  · cases hstep : s.machine.step (c.link settings) with
    | running m =>
      refine (sane_of_running (by exact hs)).2 ⟨h.silent, ?_⟩
      change m.calls.length ≤ _
      exact length_calls_of_running hstep h.calls
    | finished m =>
      refine AtRest.sane ⟨by simp [record], by simp [record], by simp [record, Status.canStep],
        by simp [record], fun _ _ => h.silent, ?_, by simp [record, h.silent]⟩
      exact le_of_eq_of_le (length_calls_of_finished hstep) h.calls
    | awaiting m dest ty =>
      obtain ⟨i, hi, hop, rfl⟩ := Machine.step_eq_awaiting hstep
      refine AtRest.sane ⟨by simp [record], ?_, by simp [record, Status.canStep],
        by simp [record], fun _ _ => h.silent, ?_, by simp [record, h.silent]⟩
      · rintro d t ⟨⟩
        refine ⟨i.line, ?_⟩
        rw [← hop]
        simpa [record] using hi
      · simpa [record] using h.calls
    | faulted m f =>
      let t : Session := { s with machine := m, resumeAt := none }
      have hcalls : t.machine.calls.length ≤ (c.link settings).settings.maxCallDepth :=
        le_of_eq_of_le (length_calls_of_faulted hstep) h.calls
      have hd : t.diagnostics = [] := h.silent
      exact (AtRest.fault hd hcalls (not_unknownLabel_of_step hl hstep)).sane

theorem Sane.turn (hl : Linked c.functions c.instrs) {s : Session} (hs : s.status = .running)
    (h : Sane (c.link settings) s) : Sane (c.link settings) (s.turn (c.link settings)) :=
  ((sane_of_running hs).1 h).turn hl hs

/-- No step is begun by a turn. -/
theorem stepping_turn {s : Session} (h : s.stepping = none) : (s.turn image).stepping = none := by
  unfold Session.turn
  split
  · rfl
  · cases s.machine.step image <;> simp only [record, Session.fault] <;> first
      | exact h
      | (split <;> exact h)

/-- A session comes to rest only where it stops running. -/
theorem status_of_drive {fuel : Nat} {budget : Option Nat} {s r : Session}
    (h : drive image fuel budget s = some r) : r.status ≠ .running := by
  induction fuel generalizing budget s with
  | zero => cases h
  | succ fuel ih =>
    rw [drive] at h
    split at h
    · cases h
      simp
    dsimp only at h
    split at h
    · exact ih h
    · cases h
      assumption

/-- A session that runs comes to rest as sessions do.  If its budget is limited, no step may be
under way. -/
theorem Going.drive (hl : Linked c.functions c.instrs) {fuel : Nat} {budget : Option Nat}
    {s r : Session} (h : Going (c.link settings) s) (hs : s.status = .running)
    (hb : budget ≠ none → s.stepping = none)
    (hr : Session.drive (c.link settings) fuel budget s = some r) : AtRest (c.link settings) r := by
  have hkeeps : Sane (c.link settings) r ∧ (budget ≠ none → r.stepping = none) := by
    refine drive_keeps
      (P := fun t => Sane (c.link settings) t ∧ (budget ≠ none → t.stepping = none))
      (fun t ht hP => ⟨hP.1.turn hl ht, fun hb => stepping_turn (hP.2 hb)⟩)
      (fun hb t ht hP => ?_) hr hs ⟨(sane_of_running hs).2 h, hb⟩
    obtain ⟨hsilent, hcalls⟩ := (sane_of_running ht).1 hP.1
    refine ⟨AtRest.sane ⟨nofun, nofun, fun _ => hP.2 hb, by simp, fun _ _ => hsilent, hcalls,
      by simp [hsilent]⟩, hP.2⟩
  exact hkeeps.1.atRest (status_of_drive hr)

/-! ### What commands keep -/

theorem AtRest.silent_of_canRun {s : Session} (h : AtRest image s) (hs : s.status.canRun = true) :
    s.diagnostics = [] := by
  refine h.silent ?_ ?_
  · intro he
    rw [he] at hs
    cases hs
  · intro he
    rw [he] at hs
    cases hs

theorem AtRest.silent_of_awaiting {s : Session} {dest : Place} {ty : Ty} (h : AtRest image s)
    (hs : s.status = .awaitingInput dest ty) : s.diagnostics = [] :=
  h.silent (by rw [hs]; exact nofun) (by rw [hs]; exact nofun)

/-- A session that is let run comes to rest as sessions do. -/
theorem atRest_of_run (hl : Linked c.functions c.instrs) {fuel : Nat} {budget : Option Nat}
    {s r : Session} (hr : s.run (c.link settings) fuel budget = some r)
    (hcan : s.status.canRun = true) (hd : s.diagnostics = [])
    (hc : s.machine.calls.length ≤ (c.link settings).settings.maxCallDepth)
    (hb : budget ≠ none → s.stepping = none) : AtRest (c.link settings) r := by
  rw [Session.run, if_pos hcan] at hr
  have hgoing : Going (c.link settings) { s with status := .running } := ⟨hd, hc⟩
  exact hgoing.drive hl rfl hb hr

theorem AtRest.run (hl : Linked c.functions c.instrs) {fuel : Nat} {budget : Option Nat}
    {s r : Session} (h : AtRest (c.link settings) s)
    (hr : s.run (c.link settings) fuel budget = some r) : AtRest (c.link settings) r := by
  by_cases hcan : s.status.canRun = true
  · exact atRest_of_run hl hr hcan (h.silent_of_canRun hcan) h.calls
      fun _ => h.stepping (Status.canStep_of_canRun h.status hcan)
  · rw [Session.run, if_neg hcan] at hr
    cases hr
    exact h

/-- A step is begun by a session at rest, and over when it pauses. -/
theorem AtRest.step (hl : Linked c.functions c.instrs) {fuel : Nat} {mode : StepMode}
    {s r : Session} (h : AtRest (c.link settings) s)
    (hr : s.step (c.link settings) fuel mode = some r) : AtRest (c.link settings) r := by
  unfold Session.step at hr
  split at hr
  · rename_i hcan
    have hrun := Status.canRun_of_canStep hcan
    exact atRest_of_run hl hr hrun (h.silent_of_canRun hrun) h.calls fun hb => absurd rfl hb
  · cases hr
    exact h

theorem AtRest.provideInput (hl : Linked c.functions c.instrs) {fuel : Nat} {line : String}
    {s r : Session} (h : AtRest (c.link settings) s)
    (hr : s.provideInput (c.link settings) fuel line = some r) : AtRest (c.link settings) r := by
  unfold Session.provideInput at hr
  split at hr
  · rename_i dest ty hs
    have hsilent := h.silent_of_awaiting hs
    split at hr
    · rename_i v hv
      refine atRest_of_run hl hr rfl hsilent ?_ fun hb => absurd rfl hb
      change (s.machine.write dest v).calls.length ≤ _
      rw [length_calls_write]
      exact h.calls
    · rename_i f hv
      cases hr
      refine AtRest.fault hsilent h.calls ?_
      rintro l rfl
      cases OfValues.ofInput line ty _ hv
  · cases hr
    exact h

theorem AtRest.cancelInput {s : Session} (h : AtRest image s) :
    AtRest image (s.cancelInput image) := by
  unfold Session.cancelInput
  split
  · rename_i dest ty hs
    have hsilent := h.silent_of_awaiting hs
    have hfault : AtRest image (s.fault image .inputCancelled) :=
      AtRest.fault hsilent h.calls nofun
    exact ⟨nofun, nofun, nofun, fun _ => hfault.reported (.inl rfl), fun _ h => absurd rfl h,
      h.calls, hfault.labels⟩
  · exact h

/-- What is said of a session at rest does not depend on what the host wants. -/
theorem AtRest.of_eq {s s' : Session} (h : AtRest image s) (hm : s'.machine = s.machine)
    (hs : s'.status = s.status) (hd : s'.diagnostics = s.diagnostics)
    (hstep : s'.stepping = s.stepping) : AtRest image s' := by
  obtain ⟨hstatus, hinput, hstepping, hreported, hsilent, hcalls, hlabels⟩ := h
  refine ⟨?_, ?_, ?_, ?_, ?_, ?_, ?_⟩
  · rwa [hs]
  · rwa [hs, hm]
  · rwa [hs, hstep]
  · rwa [hs, hd]
  · rwa [hs, hd]
  · rwa [hm]
  · rwa [hd]

theorem AtRest.stop {s : Session} (h : AtRest image s) : AtRest image s.stop := by
  unfold Session.stop
  split
  · exact h
  · rename_i hs
    have hsilent : s.diagnostics = [] := by
      refine h.silent ?_ ?_
      · intro he
        rw [he] at hs
        exact hs rfl
      · intro he
        rw [he] at hs
        exact hs rfl
    exact ⟨nofun, nofun, nofun, by simp, fun _ _ => hsilent, h.calls, by simp [hsilent]⟩

theorem AtRest.perform (hl : Linked c.functions c.instrs) {fuel : Nat} {command : Command}
    {s r : Session} (h : AtRest (c.link settings) s)
    (hr : s.perform (c.link settings) fuel command = some r) : AtRest (c.link settings) r := by
  cases command with
  | addBreakpoint line => cases hr; exact h.of_eq rfl rfl rfl rfl
  | removeBreakpoint line => cases hr; exact h.of_eq rfl rfl rfl rfl
  | resume => exact h.run hl hr
  | runSteps budget => exact h.run hl hr
  | step mode => exact h.step hl hr
  | requestPause =>
    cases hr
    unfold Session.requestPause
    split
    · exact h
    · exact h.of_eq rfl rfl rfl rfl
  | stop => cases hr; exact h.stop
  | provideInput line => exact h.provideInput hl hr
  | cancelInput => cases hr; exact h.cancelInput

end

/-! ### What commands never take back -/

/-- What a session has printed is printed, and once it is over nothing of it changes. -/
structure Keeps (s t : Session) : Prop where
  output : ∃ more, t.machine.output = s.machine.output ++ more
  halted : s.status.isHalted = true →
    t.status = s.status ∧ t.machine = s.machine ∧ t.diagnostics = s.diagnostics

theorem Keeps.refl (s : Session) : Keeps s s := ⟨⟨"", by simp⟩, fun _ => ⟨rfl, rfl, rfl⟩⟩

theorem Keeps.trans {s t u : Session} (h : Keeps s t) (h' : Keeps t u) : Keeps s u where
  output := by
    obtain ⟨first, hfirst⟩ := h.output
    obtain ⟨more, hmore⟩ := h'.output
    exact ⟨first ++ more, by rw [hmore, hfirst, String.append_assoc]⟩
  halted := by
    intro hs
    obtain ⟨hstatus, hm, hd⟩ := h.halted hs
    obtain ⟨hstatus', hm', hd'⟩ := h'.halted (by rwa [hstatus])
    exact ⟨hstatus'.trans hstatus, hm'.trans hm, hd'.trans hd⟩

/-- A session that is not over may change, as long as it prints after what is printed. -/
theorem Keeps.of_output {s t : Session} (hs : s.status.isHalted = false)
    (h : ∃ more, t.machine.output = s.machine.output ++ more) : Keeps s t :=
  ⟨h, fun h' => by rw [hs] at h'; cases h'⟩

theorem output_turn (s : Session) :
    ∃ more, (s.turn image).machine.output = s.machine.output ++ more := by
  unfold Session.turn
  split
  · exact ⟨"", by simp [pauseFor]⟩
  · cases hstep : s.machine.step image with
    | running m =>
      obtain ⟨i, -, ⟨-, rfl⟩ | ⟨-, hgo⟩⟩ := Machine.step_eq_running hstep
      · exact ⟨"", by simp [record, Machine.next]⟩
      · simpa [record] using hgo.output
    | finished m => exact ⟨"", by simp [record, Machine.output_of_finished hstep]⟩
    | awaiting m dest ty => exact ⟨"", by simp [record, Machine.output_of_awaiting hstep]⟩
    | faulted m f =>
      refine ⟨"", ?_⟩
      simp only [record, Session.fault]
      split <;> simp [Machine.output_of_faulted hstep]

theorem output_drive {fuel : Nat} {budget : Option Nat} {s r : Session}
    (hs : s.status = .running) (hr : drive image fuel budget s = some r) :
    ∃ more, r.machine.output = s.machine.output ++ more := by
  refine drive_keeps (P := fun t => ∃ more, t.machine.output = s.machine.output ++ more)
    (fun t _ hP => ?_) (fun _ t _ hP => hP) hr hs ⟨"", by simp⟩
  obtain ⟨first, hfirst⟩ := hP
  obtain ⟨more, hmore⟩ := @output_turn image t
  exact ⟨first ++ more, by rw [hmore, hfirst, String.append_assoc]⟩

theorem keeps_run {fuel : Nat} {budget : Option Nat} {s r : Session}
    (hr : s.run image fuel budget = some r) : Keeps s r := by
  unfold Session.run at hr
  split at hr
  · rename_i hcan
    exact .of_output (Status.isHalted_of_canRun hcan)
      (output_drive (s := { s with status := .running }) rfl hr)
  · cases hr
    exact .refl s

theorem keeps_perform {fuel : Nat} {command : Command} {s r : Session}
    (hr : s.perform image fuel command = some r) : Keeps s r := by
  cases command with
  | addBreakpoint line => cases hr; exact ⟨⟨"", by simp [addBreakpoint]⟩, fun _ => ⟨rfl, rfl, rfl⟩⟩
  | removeBreakpoint line =>
    cases hr; exact ⟨⟨"", by simp [removeBreakpoint]⟩, fun _ => ⟨rfl, rfl, rfl⟩⟩
  | resume => exact keeps_run hr
  | runSteps budget => exact keeps_run hr
  | step mode =>
    change s.step image fuel mode = some r at hr
    unfold Session.step at hr
    split at hr
    · have hkeeps := keeps_run hr
      exact ⟨hkeeps.output, hkeeps.halted⟩
    · cases hr
      exact .refl s
  | requestPause =>
    cases hr
    unfold Session.requestPause
    split
    · exact .refl s
    · exact ⟨⟨"", by simp⟩, fun _ => ⟨rfl, rfl, rfl⟩⟩
  | stop =>
    cases hr
    unfold Session.stop
    split
    · exact .refl s
    · rename_i hs
      exact .of_output (Bool.eq_false_iff.2 hs) ⟨"", by simp⟩
  | provideInput line =>
    change s.provideInput image fuel line = some r at hr
    unfold Session.provideInput at hr
    split at hr
    · rename_i dest ty hs
      refine .of_output (by rw [hs]; rfl) ?_
      split at hr
      · have hkeeps := keeps_run hr
        simpa [Machine.next] using hkeeps.output
      · cases hr
        refine ⟨"", ?_⟩
        simp only [Session.fault]
        split <;> simp
    · cases hr
      exact .refl s
  | cancelInput =>
    cases hr
    unfold Session.cancelInput
    split
    · rename_i dest ty hs
      refine .of_output (by rw [hs]; rfl) ⟨"", ?_⟩
      simp only [Session.fault]
      split <;> simp
    · exact .refl s

theorem keeps_of_leads {s t : Session} (h : Leads image s t) : Keeps s t := by
  induction h with
  | refl => exact .refl s
  | tail _ hu ih => exact ih.trans (keeps_perform hu)

theorem atRest_start (image : Image) : AtRest image (start image) :=
  ⟨nofun, nofun, fun _ => rfl, by simp [start], fun _ _ => rfl, Nat.zero_le _, by simp [start]⟩

/-- Code that asks for a whole number and prints it. -/
def asking : Code where
  instrs := [⟨.input (.var ⟨"n", .global⟩) .int, 1⟩,
    ⟨.print (.place (.var ⟨"n", .global⟩)) true, 2⟩, ⟨.halt, 2⟩]
  functions := []

end Session

end NumericScript
