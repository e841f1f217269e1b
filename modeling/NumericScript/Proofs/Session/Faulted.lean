import NumericScript.Proofs.Session.InPlace

/-! # What a fault leaves

An instruction that faults has changed nothing that the program or its host could go on with, and
the session reports it once, for the line of the instruction.

* `Machine.SameStore`: being the same but for bookkeeping.
* `Session.fault_keeps_store`: instructions that fault, alone and in sessions, and answers that are
  refused. -/

namespace NumericScript

/-- A frame without the line of the instruction last executed in it. -/
def Frame.unlined (f : Frame) : Frame := { f with line := none }

namespace Machine

variable {image : Image} {m m' m'' : Machine}

/-- The machine `m'` stands where `m` does, and differs from it at most in the number of
instructions that are counted, in the line noted in a frame, and in the arguments that are waiting.
-/
structure SameStore (m m' : Machine) : Prop where
  pc : m'.pc = m.pc
  globals : m'.globals = m.globals
  frames : m'.frames.map Frame.unlined = m.frames.map Frame.unlined
  returned : m'.returned = m.returned
  angle : m'.angle = m.angle
  output : m'.output = m.output

theorem sameStore_counted (m : Machine) (n : Nat) : SameStore m { m with executed := n } :=
  ⟨rfl, rfl, rfl, rfl, rfl, rfl⟩

theorem sameStore_noted (m : Machine) (line : Nat) : SameStore m (m.noted line) where
  pc := pc_noted m line
  globals := globals_noted m line
  frames := by
    rw [frames_noted, frames_eq_cons m, List.tail_cons, List.map_cons, List.map_cons]
    rfl
  returned := returned_noted m line
  angle := angle_noted m line
  output := output_noted m line

/-- Waiting arguments do not matter. -/
theorem SameStore.with_args (h : SameStore m m') (args : List Value) :
    SameStore m { m' with args := args } :=
  ⟨h.pc, h.globals, h.frames, h.returned, h.angle, h.output⟩

/-- What a fault leaves in place is as before. -/
theorem sameStore_of_error {i : Instr} {f : Fault}
    (h : (InPlace.perform image i).outcome m = (.error f, m')) : SameStore m m' := by
  obtain rfl | ⟨k, rfl⟩ := InPlace.eq_of_error h
  · exact sameStore_counted m _
  · exact (sameStore_noted m i.line).with_args _

/-- A step that faults executes an instruction, which faults in place. -/
theorem exists_of_faulted {f : Fault} (h : m.step image = .faulted m' f) :
    ∃ i m'', image.action? m = some i ∧ (InPlace.perform image i).outcome m = (.error f, m'') ∧
      m' = { m'' with args := m.args } := by
  unfold step at h
  split at h
  · cases h
  · rename_i i hi
    split at h
    · cases h
    · rename_i hl
      rw [InPlace.perform_eq] at h
      split at h
      · rename_i move m'' _
        cases move <;> cases h
      · cases h
        exact ⟨i, _, Image.action?_eq_some.2 ⟨hi, by simpa using hl⟩, by assumption, rfl⟩

end Machine

namespace Session

open Machine

variable {image : Image} {s : Session}

/-- The report of a fault at an instruction. -/
def report (i : Instr) (f : Fault) : Diagnostic := .error .runtime f.message i.line 1

theorem fault_eq {i : Instr} {f : Fault} (hi : image.action? s.machine = some i)
    (hf : f ≠ .overflow) : s.fault image f =
      { s with status := .halted .fault, diagnostics := s.diagnostics ++ [report i f] } := by
  have hline : s.line? image = some i.line := by
    rw [line?, Image.line?, (Image.action?_eq_some.1 hi).1]
    rfl
  rw [Session.fault, if_neg hf, hline]
  rfl

/-- A turn that ends in a fault is a step that faults, and what is reported is its instruction's. -/
theorem turn_of_fault (hs : s.status = .running) (h : (s.turn image).status = .halted .fault) :
    ∃ i f m m', image.action? s.machine = some i ∧ s.machine.step image = .faulted m f ∧
      (InPlace.perform image i).outcome s.machine = (.error f, m') ∧
      m = { m' with args := s.machine.args } ∧
      s.turn image =
        { s with
          machine := m, resumeAt := none, status := .halted .fault
          diagnostics := s.diagnostics ++ [report i f] } := by
  obtain ⟨reason, -, hturn⟩ | ⟨-, hturn, -⟩ := turn_cases hs (by rw [h]; exact nofun)
  · rw [hturn] at h
    cases h
  · rw [hturn] at h ⊢
    cases hstep : s.machine.step image with
    | running m => rw [hstep] at h; exact absurd (hs.symm.trans h) nofun
    | finished m => rw [hstep] at h; cases h
    | awaiting m dest ty => rw [hstep] at h; cases h
    | faulted m f =>
      obtain ⟨i, m', hi, herror, rfl⟩ := exists_of_faulted hstep
      have hf : f ≠ .overflow := by
        rintro rfl
        rw [hstep] at h
        cases h
      refine ⟨i, f, _, m', hi, rfl, herror, rfl, ?_⟩
      -- The report is made where the machine stands after the fault.
      have hat : image.action? { m' with args := s.machine.args } = some i := by
        rw [← hi]
        unfold Image.action?
        rw [← (sameStore_of_error herror).pc]
      exact fault_eq (s := { s with machine := _, resumeAt := none }) hat hf

/-- A fault leaves everything as it was.  When a turn of a session ends in a fault, the session has
the variables, frames, output, angle mode and result of the last call that it had before, and one
more diagnostic, which is for the line of the instruction at hand.  That instruction has faulted in
place too: it changes the machine piece by piece just as the machine says, and nothing but arguments
that were waiting is gone when it faults.  And when a host answers a request for input with a line
that is refused, nothing changes but that the session is over, with a diagnostic for the line of the
instruction that asked. -/
theorem fault_keeps_store {c : Code} {settings : MachineSettings}
    (hi : Image.ofCode c settings = .ok image) :
    (∀ s : Session, s.status = .running → (s.turn image).status = .halted .fault →
      ∃ i f, image.action? s.machine = some i ∧ SameStore s.machine (s.turn image).machine ∧
        (s.turn image).diagnostics = s.diagnostics ++ [report i f] ∧
        ∃ m, (InPlace.perform image i).outcome s.machine = (.error f, m) ∧
          SameStore s.machine m) ∧
    (∀ m i, Machine.perform image m i =
      match (InPlace.perform image i).outcome m with
      | (.ok move, m') => move.follow m'
      | (.error f, m') => .faulted { m' with args := m.args } f) ∧
    ∀ s dest ty line fuel f, Leads image (start image) s → s.status = .awaitingInput dest ty →
      Value.ofInput line ty = .error f →
      ∃ i, image.action? s.machine = some i ∧ i.op = .input dest ty ∧
        s.provideInput image fuel line =
          some { s with
            status := .halted .fault, diagnostics := s.diagnostics ++ [report i f] } := by
  obtain ⟨hl, rfl⟩ := Code.ofCode_eq_ok_iff.1 hi
  refine ⟨fun s hs h => ?_, InPlace.perform_eq _, fun s dest ty line fuel f hs hwaits hv => ?_⟩
  · obtain ⟨i, f, m, m', hi, -, herror, rfl, hturn⟩ := turn_of_fault hs h
    have hsame := sameStore_of_error herror
    refine ⟨i, f, hi, ?_, by rw [hturn], m', herror, hsame⟩
    rw [hturn]
    exact hsame.with_args _
  · have hrest : AtRest (c.link settings) s := by
      clear hwaits hv
      induction hs with
      | refl => exact atRest_start _
      | tail _ hu ih => exact ih.perform hl hu
    obtain ⟨n, hn⟩ := hrest.input dest ty hwaits
    have hat : (c.link settings).action? s.machine = some ⟨.input dest ty, n⟩ :=
      Image.action?_eq_some.2 ⟨hn, rfl⟩
    have hne : f ≠ .overflow := fun hf => (OfValues.ofInput line ty).ne_overflow (hf ▸ hv)
    refine ⟨_, hat, rfl, ?_⟩
    rw [provideInput, hwaits]
    dsimp only
    rw [hv]
    exact congrArg some (fault_eq hat hne)

/-- Code that asks for a whole number, puts it where an argument waits, and calls a function that
sets the unit of angles and then wants the factorial of a number below zero. -/
def hapless : Image where
  instrs := #[⟨.input (.var ⟨"n", .global⟩) .int, 1⟩, ⟨.param (.place (.var ⟨"n", .global⟩)), 2⟩,
    ⟨.call (.user "f") 1, 2⟩, ⟨.halt, 2⟩, ⟨.label (.function "f"), 3⟩,
    ⟨.call (.builtin .degrees) 0, 4⟩, ⟨.print (.const (.str "so far")) true, 5⟩,
    ⟨.param (.const (.int (-1))), 6⟩, ⟨.call (.builtin .factorial) 1, 6⟩, ⟨.return none, 7⟩]
  functions := [("f", ⟨"f", .function "f", [⟨"x", .local⟩], false, 3⟩)]
  labels := [(.function "f", 4)]
  settings := {}

/-- The call of the factorial faults inside the function, and a word is refused as a number. -/
theorem fault_keeps_store_hapless :
    Image.ofCode ⟨hapless.instrs.toList, hapless.functions.map (·.2)⟩ {} = .ok hapless ∧
    (∃ s : Session, s.status = .running ∧ s.machine.depth = 2 ∧ s.machine.args.length = 1 ∧
      (s.turn hapless).status = .halted .fault ∧ SameStore s.machine (s.turn hapless).machine ∧
      ∃ i f m, i.line = 6 ∧ (s.turn hapless).diagnostics = s.diagnostics ++ [report i f] ∧
        (InPlace.perform hapless i).outcome s.machine = (.error f, m) ∧ m.args = [] ∧
        SameStore s.machine m) ∧
    ∃ (s t : Session) (i : Instr) (f : Fault),
      s.status = .awaitingInput (.var ⟨"n", .global⟩) .int ∧
      s.provideInput hapless 1 "one" = some t ∧ i.line = 1 ∧
      t.diagnostics = s.diagnostics ++ [report i f] ∧ t.machine = s.machine := by
  have hi : Image.ofCode ⟨hapless.instrs.toList, hapless.functions.map (·.2)⟩ {} = .ok hapless :=
    rfl
  obtain ⟨hturn, -, hanswer⟩ := fault_keeps_store hi
  refine ⟨hi, ?_, ?_⟩
  · let s₁ := ((start hapless).addBreakpoint 6).perform hapless 9 .resume |>.get (by decide +kernel)
    let s₂ := (s₁.perform hapless 9 (.provideInput "1")).get (by decide +kernel)
    let s₃ := (s₂.perform hapless 9 (.runSteps 1)).get (by decide +kernel)
    let s : Session := { s₃ with status := .running }
    have hover : (s.turn hapless).status = .halted .fault := by decide +kernel
    obtain ⟨i, f, hi, hsame, hreport, m, herror, hkept⟩ := hturn s rfl hover
    obtain rfl : ⟨.call (.builtin .factorial) 1, 6⟩ = i := by
      have hat : hapless.action? s.machine = some ⟨.call (.builtin .factorial) 1, 6⟩ := by
        decide +kernel
      exact Option.some.inj (hat.symm.trans hi)
    have hargs : ((InPlace.perform hapless ⟨.call (.builtin .factorial) 1, 6⟩).outcome
        s.machine).2.args = [] := by decide +kernel
    rw [herror] at hargs
    exact ⟨s, rfl, by decide +kernel, by decide +kernel, hover, hsame, _, f, m, rfl, hreport,
      herror, hargs, hkept⟩
  · let s := (start hapless).perform hapless 9 .resume |>.get (by decide +kernel)
    have hs : Leads hapless (start hapless) s := Leads.refl.tail (Option.some_get _).symm
    have hwaits : s.status = .awaitingInput (.var ⟨"n", .global⟩) .int := by decide +kernel
    obtain ⟨f, hf⟩ : ∃ f, Value.ofInput "one" .int = .error f := ⟨_, rfl⟩
    obtain ⟨i, hi, -, ht⟩ := hanswer s _ _ "one" 1 f hs hwaits hf
    have hline : (hapless.action? s.machine).map (·.line) = some 1 := by decide +kernel
    rw [hi] at hline
    exact ⟨s, _, i, f, hwaits, ht, Option.some.inj hline, rfl, rfl⟩

end Session

end NumericScript
