import NumericScript.Proofs.Session

/-! # Debugging does not change what a program does

A host may set breakpoints, ask for pauses, let the machine go on for some instructions or in
steps, and answer requests for input with the lines of a list in turn.  Whatever it does, the
machine goes through the same states as in a run that reads the same lines and that nobody
interrupts.  Looking at a session (`Session.inspect`) gives a snapshot and no other session, so
it need not be among the commands.

* `Session.Driven`: the sessions to which a host can come.
* `Session.Driven.tracks`: they are where the uninterrupted run is, was, or ends.
* `Session.Driven.transparent`: what this means for output and outcome. -/

namespace NumericScript

/-- Whether a command only controls how far a session goes at once. -/
def Command.isControl : Command → Bool
  | .addBreakpoint _ | .removeBreakpoint _ | .resume | .runSteps _ | .step _
  | .requestPause => true
  | .stop | .provideInput _ | .cancelInput => false

/-- Whether a session asks for input. -/
def Status.isAwaiting : Status → Bool
  | .awaitingInput _ _ => true
  | _ => false

namespace Session

/-- The sessions to which a host can come that only controls how far a session goes at once
and answers requests for input with the given lines in turn, and the lines left then. -/
inductive Driven (image : Image) (lines : List String) : Session → List String → Prop where
  | start : Driven image lines (start image) lines
  | control {s s' : Session} {rest : List String} {command : Command} {fuel : Nat}
      (h : Driven image lines s rest) (hc : command.isControl = true)
      (hs : s.perform image fuel command = some s') : Driven image lines s' rest
  | answer {s s' : Session} {line : String} {rest : List String} {fuel : Nat}
      (h : Driven image lines s (line :: rest)) (ha : s.status.isAwaiting = true)
      (hs : s.perform image fuel (.provideInput line) = some s') : Driven image lines s' rest

/-! ### Where the uninterrupted run is -/

section

variable (image : Image) (lines rest : List String)

/-- How a session stands to the uninterrupted run that reads `lines`, when `rest` are left. -/
def Stands (s : Session) : Prop :=
  match s.status with
  | .awaitingInput dest ty => s.diagnostics = [] ∧ ∃ m,
      image.Reaches (image.startPoint lines) ⟨m, rest⟩ ∧
        m.step image = .awaiting s.machine dest ty
  | .halted _ => ∃ t, Completes image (image.startPoint lines) t rest ∧
      t.machine = s.machine ∧ t.status = s.status ∧ t.diagnostics = s.diagnostics
  | _ => s.diagnostics = [] ∧ image.Reaches (image.startPoint lines) ⟨s.machine, rest⟩

/-- A session stands where the uninterrupted run is at some time, and has printed what that has
printed. -/
structure Tracks (s : Session) : Prop where
  stands : Stands image lines rest s
  output : ∃ q, image.Reaches (image.startPoint lines) q ∧
    q.machine.output = s.machine.output

end

variable {image : Image} {lines rest : List String} {s s' : Session}

theorem stands_of_canRun (h : s.status.canRun = true) : Stands image lines rest s ↔
    s.diagnostics = [] ∧ image.Reaches (image.startPoint lines) ⟨s.machine, rest⟩ := by
  unfold Stands
  cases hs : s.status <;> simp_all [Status.canRun]

/-- Only the machine, the status and the diagnostics matter. -/
theorem Tracks.of_eq (h : Tracks image lines rest s) (hm : s'.machine = s.machine)
    (hs : s'.status = s.status) (hd : s'.diagnostics = s.diagnostics) :
    Tracks image lines rest s' := by
  obtain ⟨hstands, houtput⟩ := h
  refine ⟨?_, by rwa [hm]⟩
  unfold Stands at hstands ⊢
  rwa [hs, hm, hd]

/-- A session that can run tracks the run whatever it is said to do. -/
theorem Tracks.of_canRun (h : Tracks image lines rest s) (hs : s.status.canRun = true)
    {status : Status} (hs' : status.canRun = true) :
    Tracks image lines rest { s with status := status } :=
  ⟨(stands_of_canRun hs').2 ((stands_of_canRun hs).1 h.stands), h.output⟩

/-! ### What a turn keeps -/

/-- A session that is over after a step of its machine is so in the uninterrupted run. -/
theorem stands_of_completes {t : Session} {m : Machine}
    (hreach : image.Reaches (image.startPoint lines) ⟨m, rest⟩) {unread : List String}
    (ht : Completes image ⟨m, rest⟩ t unread) (hm : t.machine = s.machine)
    (hstatus : t.status = s.status) (hd : t.diagnostics = s.diagnostics)
    (hs : s.status.isHalted = true) : Stands image lines unread s := by
  have hcompletes := ht.of_reaches hreach
  unfold Stands
  cases hst : s.status <;> rw [hst] at hs <;> try cases hs
  exact ⟨t, hcompletes, hm, hstatus.trans hst, hd⟩

@[simp] theorem machine_fault (s : Session) (f : Fault) :
    (s.fault image f).machine = s.machine := by
  unfold fault
  split <;> rfl

/-- A fault is the same in sessions that differ only in how they are controlled. -/
theorem fault_congr {f : Fault} (hm : s'.machine = s.machine)
    (hd : s'.diagnostics = s.diagnostics) :
    (s'.fault image f).status = (s.fault image f).status ∧
      (s'.fault image f).diagnostics = (s.fault image f).diagnostics := by
  unfold fault line?
  split <;> simp [hm, hd]

theorem Tracks.turn (h : Tracks image lines rest s) (hs : s.status = .running) :
    Tracks image lines rest (s.turn image) := by
  have hcan : s.status.canRun = true := by rw [hs]; rfl
  obtain ⟨hd, hreach⟩ := (stands_of_canRun hcan).1 h.stands
  unfold Session.turn
  split
  · exact ⟨(stands_of_canRun rfl).2 ⟨hd, hreach⟩, h.output⟩
  · have hover := @Completes.of_isHalted image ⟨s.machine, rest⟩
    dsimp only at hover
    cases hstep : s.machine.step image with
    | running m =>
      have hnext : image.advance ⟨s.machine, rest⟩ = .next ⟨m, rest⟩ := by
        simp [Image.advance, hstep]
      refine ⟨(stands_of_canRun ?_).2 ⟨hd, ?_⟩, _, hreach.tail hnext, rfl⟩
      · exact hcan
      · exact hreach.tail hnext
    | finished m =>
      rw [hstep] at hover
      exact ⟨stands_of_completes hreach (hover rfl) rfl rfl hd.symm rfl,
        _, hreach, (Machine.output_of_finished hstep).symm⟩
    | awaiting m dest ty =>
      exact ⟨⟨hd, s.machine, hreach, hstep⟩, _, hreach, (Machine.output_of_awaiting hstep).symm⟩
    | faulted m f =>
      rw [hstep] at hover
      obtain ⟨hstatus, hdiag⟩ := @fault_congr image
        { s with machine := m, resumeAt := none } (going m) f rfl hd.symm
      refine ⟨stands_of_completes hreach (hover (status_fault _ _)) ?_ hstatus hdiag
        (status_fault _ _), _, hreach, ?_⟩
      · simp [record, going]
      · simp [record, Machine.output_of_faulted hstep]

/-! ### What a command keeps -/

theorem Tracks.run (h : Tracks image lines rest s) {fuel : Nat} {budget : Option Nat}
    (hs : s.run image fuel budget = some s') : Tracks image lines rest s' := by
  unfold Session.run at hs
  split at hs
  · rename_i hcan
    refine drive_keeps (fun t ht hP => hP.turn ht) (fun _ t ht hP => ?_) hs rfl
      (h.of_canRun hcan rfl)
    exact hP.of_canRun (by rw [ht]; rfl) rfl
  · cases hs
    exact h

theorem Tracks.control (h : Tracks image lines rest s) {command : Command}
    (hc : command.isControl = true) {fuel : Nat}
    (hs : s.perform image fuel command = some s') : Tracks image lines rest s' := by
  cases command with
  | addBreakpoint line => cases hs; exact h.of_eq rfl rfl rfl
  | removeBreakpoint line => cases hs; exact h.of_eq rfl rfl rfl
  | resume => exact h.run hs
  | runSteps budget => exact h.run hs
  | step mode =>
    change s.step image fuel mode = some s' at hs
    unfold Session.step at hs
    split at hs
    · exact (h.of_eq rfl rfl rfl : Tracks image lines rest
        { s with stepping := some ⟨mode, s.machine.depth⟩, resumeAt := some s.machine.pc }).run hs
    · cases hs
      exact h
  | requestPause =>
    cases hs
    unfold Session.requestPause
    split
    · exact h
    · exact h.of_eq rfl rfl rfl
  | stop | provideInput line | cancelInput => cases hc

theorem Tracks.answer {line : String} (h : Tracks image lines (line :: rest) s)
    (ha : s.status.isAwaiting = true) {fuel : Nat}
    (hs : s.perform image fuel (.provideInput line) = some s') : Tracks image lines rest s' := by
  obtain ⟨hstands, -⟩ := h
  unfold Stands at hstands
  cases hst : s.status with
  | awaitingInput dest ty =>
    rw [hst] at hstands
    obtain ⟨hd, m, hreach, hstep⟩ := hstands
    change s.provideInput image fuel line = some s' at hs
    unfold Session.provideInput at hs
    rw [hst] at hs
    dsimp only at hs
    cases hv : Value.ofInput line ty with
    | ok v =>
      rw [hv] at hs
      have hnext : image.advance ⟨m, line :: rest⟩ =
          .next ⟨(s.machine.write dest v).next, rest⟩ := by
        simp [Image.advance, hstep, hv]
      have htracks : Tracks image lines rest
          { s with machine := (s.machine.write dest v).next, status := .running } :=
        ⟨(stands_of_canRun rfl).2 ⟨hd, hreach.tail hnext⟩, _, hreach.tail hnext, rfl⟩
      exact htracks.run hs
    | error f =>
      rw [hv] at hs
      cases hs
      obtain ⟨hstatus, hdiag⟩ := @fault_congr image s
        ⟨s.machine, .awaitingInput dest ty, [], [], none, false, none⟩ f rfl hd.symm
      refine ⟨stands_of_completes hreach (.of_refused hstep hv) ?_ hstatus hdiag
        (status_fault _ _), _, hreach, ?_⟩
      · simp
      · simp [Machine.output_of_awaiting hstep]
  | _ => rw [hst] at ha; cases ha

/-- Whatever a host does, its session tracks the uninterrupted run. -/
theorem Driven.tracks (h : Driven image lines s rest) : Tracks image lines rest s := by
  induction h with
  | start => exact ⟨⟨rfl, .refl⟩, _, .refl, rfl⟩
  | control _ hc hs ih => exact ih.control hc hs
  | answer _ ha hs ih => exact ih.answer ha hs

/-- Debugging is transparent.  What a session has printed is printed by the uninterrupted run
at some time, and is the beginning of all that this prints if it comes to an end; and when the
session is over, the uninterrupted session is over with the same machine (output, variables,
frames, number of instructions), for the same reason, with the same diagnostics, and with the
same lines left. -/
theorem transparent (h : Driven image lines s rest) :
    (∃ q, image.Reaches (image.startPoint lines) q ∧ q.machine.output = s.machine.output) ∧
    (∀ fuel o, image.run fuel lines = some o → ∃ more, o.output = s.machine.output ++ more) ∧
    (s.status.isHalted = true → ∃ fuel s₀ t, (start image).run image fuel none = some s₀ ∧
      s₀.answerAll image fuel lines = some (t, rest) ∧ t.machine = s.machine ∧
      t.status = s.status ∧ t.diagnostics = s.diagnostics) := by
  obtain ⟨hstands, q, hq, houtput⟩ := h.tracks
  refine ⟨⟨q, hq, houtput⟩, fun fuel o ho => ?_, fun hs => ?_⟩
  · have hhalts := Image.exists_run_iff.1 ⟨fuel, ho⟩
    rw [← houtput]
    exact (hhalts.of_halts hq).output
  · unfold Stands at hstands
    cases hst : s.status <;> rw [hst] at hs <;> try cases hs
    rw [hst] at hstands
    obtain ⟨t, ⟨fuel, s₀, hs₀, ht⟩, hm, hstatus, hd⟩ := hstands
    exact ⟨fuel, s₀, t, hs₀, ht, hm, hstatus, hd⟩

/-- Code that asks for a text and prints it, made ready to run. -/
def echo : Image where
  instrs := #[⟨.input (.var ⟨"x", .global⟩) .str, 1⟩,
    ⟨.print (.place (.var ⟨"x", .global⟩)) true, 2⟩, ⟨.halt, 2⟩]
  functions := []
  labels := []
  settings := {}

/-- The session in which it is stopped by a breakpoint after it was given the text, makes a
step, and runs to its end. -/
theorem transparent_echo : ∃ s, Driven echo ["hi"] s [] ∧ s.status = .halted .finished ∧
    s.machine.output = "hi\n" ∧
    ∃ fuel s₀ t, (start echo).run echo fuel none = some s₀ ∧
      s₀.answerAll echo fuel ["hi"] = some (t, []) ∧ t.machine = s.machine ∧
      t.status = s.status ∧ t.diagnostics = s.diagnostics := by
  let s₁ := (start echo).addBreakpoint 2
  let s₂ := (s₁.perform echo 9 .resume).get (by decide +kernel)
  let s₃ := (s₂.perform echo 9 (.provideInput "hi")).get (by decide +kernel)
  let s₄ := (s₃.perform echo 9 (.step .over)).get (by decide +kernel)
  have h₁ : Driven echo ["hi"] s₁ ["hi"] :=
    @Driven.control _ _ _ _ _ (.addBreakpoint 2) 0 .start rfl rfl
  have h₂ : Driven echo ["hi"] s₂ ["hi"] := h₁.control rfl (Option.some_get _).symm
  have h₃ : Driven echo ["hi"] s₃ [] := h₂.answer (by decide +kernel) (Option.some_get _).symm
  have h₄ : Driven echo ["hi"] s₄ [] := h₃.control rfl (Option.some_get _).symm
  let s₅ := (s₄.perform echo 9 .resume).get (by decide +kernel)
  have h₅ : Driven echo ["hi"] s₅ [] := h₄.control rfl (Option.some_get _).symm
  have hs : s₅.status = .halted .finished := by decide +kernel
  exact ⟨s₅, h₅, hs, by decide +kernel, (transparent h₅).2.2 (by rw [hs]; rfl)⟩

end Session

end NumericScript
