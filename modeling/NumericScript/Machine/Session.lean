import NumericScript.Diagnostic
import NumericScript.Machine.Step
import NumericScript.Value.Input

/-! # Sessions

A session is a machine under the control of a host.  The host sets breakpoints, lets the
machine run or go in steps, answers requests for input, and may stop it at any time.

A program may run for ever.  So whatever lets the machine run takes a bound on the number of
instructions and gives nothing if the machine has not come to rest by then.

* `Session.drive_mono`: a greater bound does not change the outcome.
* `Session.mem_insertLine`: setting a breakpoint adds its line and no other. -/

namespace NumericScript

/-- Why a session pauses. -/
inductive PauseReason where
  | breakpoint (line : Nat)
  | step
  | requested
  /-- As many instructions were executed as the host wanted. -/
  | budget
deriving DecidableEq, Repr

/-- Why a session is over. -/
inductive HaltReason where
  | finished
  | fault
  | stopped
  | cancelled
  /-- A number that does not fit into 64 bits came up where the machine cannot go on. -/
  | aborted
deriving DecidableEq, Repr

/-- What a session is doing. -/
inductive Status where
  | ready
  | running
  | paused (reason : PauseReason)
  /-- A value of type `ty` is needed for `dest`. -/
  | awaitingInput (dest : Place) (ty : Ty)
  | halted (reason : HaltReason)
deriving DecidableEq, Repr

namespace Status

/-- Whether a session is over. -/
def isHalted : Status → Bool
  | halted _ => true
  | _ => false

/-- Whether the host can let the machine run. -/
def canRun : Status → Bool
  | ready | running | paused _ => true
  | awaitingInput _ _ | halted _ => false

/-- Whether the host can let the machine go in steps. -/
def canStep : Status → Bool
  | ready | paused _ => true
  | running | awaitingInput _ _ | halted _ => false

end Status

/-- How far a step goes. -/
inductive StepMode where
  /-- To the next instruction. -/
  | into
  /-- To the next instruction in the same frame or in one around it. -/
  | over
  /-- To the next instruction in a frame around the present one. -/
  | out
deriving DecidableEq, Repr

/-- A step that was begun at a certain depth. -/
structure StepRequest where
  mode : StepMode
  depth : Nat
deriving DecidableEq, Repr

/-- Whether a step ends at an instruction at a given depth. -/
def StepRequest.endsAt (r : StepRequest) (depth : Nat) : Bool :=
  match r.mode with
  | .into => true
  | .over => depth ≤ r.depth
  | .out => depth < r.depth

/-- A machine under the control of a host. -/
structure Session where
  machine : Machine
  status : Status
  diagnostics : List Diagnostic
  /-- The lines of the breakpoints, in order. -/
  breakpoints : List Nat
  stepping : Option StepRequest
  pauseRequested : Bool
  /-- Where the session paused, and does not pause again when it goes on. -/
  resumeAt : Option Nat

namespace Session

/-- A session at its beginning. -/
def start (image : Image) : Session := ⟨image.start, .ready, [], [], none, false, none⟩

/-- The line of the next instruction. -/
def line? (image : Image) (s : Session) : Option Nat := image.line? s.machine.pc

/-! ### Running -/

/-- The session after a fault, which is reported for the line of the instruction at hand. -/
def fault (image : Image) (s : Session) (f : Fault) : Session :=
  if f = .overflow then { s with status := .halted .aborted }
  else
    let d := Diagnostic.error .runtime f.message ((s.line? image).getD 0) 1
    { s with status := .halted .fault, diagnostics := s.diagnostics ++ [d] }

/-- Why the session pauses before an instruction in a line, if it does. -/
def pauseReason? (s : Session) (line : Nat) : Option PauseReason :=
  if s.pauseRequested then some .requested
  else if s.machine.frame.line ≠ some line ∧ line ∈ s.breakpoints then some (.breakpoint line)
  else
    match s.stepping with
    | some r => if r.endsAt s.machine.depth then some .step else none
    | none => none

/-- Why the session pauses now, if it does.  It does not pause before a label, and not where
it has just paused. -/
def pauseNow? (image : Image) (s : Session) : Option PauseReason :=
  match image.instrs[s.machine.pc]? with
  | none => none
  | some i =>
    if i.op.label?.isSome || s.resumeAt = some s.machine.pc then none
    else s.pauseReason? i.line

/-- The session pausing. -/
def pauseFor (s : Session) (reason : PauseReason) : Session :=
  { s with
    status := .paused reason, stepping := none, pauseRequested := false
    resumeAt := some s.machine.pc }

/-- The session after a step of its machine. -/
def record (image : Image) (s : Session) : Machine.Outcome → Session
  | .running m => { s with machine := m, resumeAt := none }
  | .finished m => { s with machine := m, resumeAt := none, status := .halted .finished }
  | .awaiting m dest ty =>
    { s with machine := m, resumeAt := none, status := .awaitingInput dest ty }
  | .faulted m f => fault image { s with machine := m, resumeAt := none } f

/-- A session that runs pauses, or executes one instruction. -/
def turn (image : Image) (s : Session) : Session :=
  match s.pauseNow? image with
  | some reason => s.pauseFor reason
  | none => s.record image (s.machine.step image)

/-- Runs until the session comes to rest or has executed as many instructions as `budget`
says, labels included.  Gives nothing if that takes more than `fuel` turns. -/
def drive (image : Image) : Nat → Option Nat → Session → Option Session
  | 0, _, _ => none
  | fuel + 1, budget, s =>
    if budget = some 0 then some { s with status := .paused .budget }
    else
      let s := s.turn image
      if s.status = .running then drive image fuel (budget.map (· - 1)) s else some s

/-- A session that comes to rest does so within every greater bound, and in the same way. -/
theorem drive_mono {image : Image} {fuel fuel' : Nat} {budget : Option Nat} {s r : Session}
    (h : drive image fuel budget s = some r) (hle : fuel ≤ fuel') :
    drive image fuel' budget s = some r := by
  induction fuel generalizing fuel' budget s with
  | zero => cases h
  | succ fuel ih =>
    obtain ⟨n, rfl⟩ : ∃ n, fuel' = n + 1 := ⟨fuel' - 1, by omega⟩
    rw [drive] at h ⊢
    split
    · rwa [if_pos (by assumption)] at h
    · rw [if_neg (by assumption)] at h
      dsimp only at h ⊢
      split
      · rw [if_pos (by assumption)] at h
        exact ih h (by omega)
      · rwa [if_neg (by assumption)] at h

/-- A bound on turns that no session comes to in practice. -/
def horizon : Nat := Nat.pow 2 62

/-- Lets the machine run if it can. -/
def run (image : Image) (fuel : Nat) (budget : Option Nat) (s : Session) : Option Session :=
  if s.status.canRun then drive image fuel budget { s with status := .running } else some s

/-- Lets the machine go one step. -/
def step (image : Image) (fuel : Nat) (mode : StepMode) (s : Session) : Option Session :=
  if s.status.canStep then
    run image fuel none
      { s with stepping := some ⟨mode, s.machine.depth⟩, resumeAt := some s.machine.pc }
  else some s

/-! ### Input -/

/-- Answers a request for input with a line, and goes on. -/
def provideInput (image : Image) (fuel : Nat) (line : String) (s : Session) :
    Option Session :=
  match s.status with
  | .awaitingInput dest ty =>
    match Value.ofInput line ty with
    | .ok v =>
      run image fuel none
        { s with machine := (s.machine.write dest v).next, status := .running }
    | .error f => some (s.fault image f)
  | _ => some s

/-- Refuses a request for input, which ends the session. -/
def cancelInput (image : Image) (s : Session) : Session :=
  match s.status with
  | .awaitingInput _ _ =>
    { s.fault image .inputCancelled with status := .halted .cancelled }
  | _ => s

/-! ### Control -/

/-- Ends the session. -/
def stop (s : Session) : Session :=
  if s.status.isHalted then s else { s with status := .halted .stopped }

/-- Asks for a pause before the next instruction. -/
def requestPause (s : Session) : Session :=
  if s.status.isHalted then s else { s with pauseRequested := true }

/-- The lines with one more among them, in order. -/
def insertLine (line : Nat) : List Nat → List Nat
  | [] => [line]
  | n :: ns =>
    if line < n then line :: n :: ns
    else if line = n then n :: ns
    else n :: insertLine line ns

/-- Sets a breakpoint. -/
def addBreakpoint (line : Nat) (s : Session) : Session :=
  { s with breakpoints := insertLine line s.breakpoints }

/-- Takes a breakpoint away. -/
def removeBreakpoint (line : Nat) (s : Session) : Session :=
  { s with breakpoints := s.breakpoints.filter (· ≠ line) }

theorem mem_insertLine {line n : Nat} {ns : List Nat} :
    n ∈ insertLine line ns ↔ n = line ∨ n ∈ ns := by
  induction ns with
  | nil => simp [insertLine]
  | cons k ks ih => grind [insertLine]

end Session

/-- What a host can do with a session. -/
inductive Command where
  | addBreakpoint (line : Nat)
  | removeBreakpoint (line : Nat)
  | resume
  /-- Lets the machine execute at most so many instructions. -/
  | runSteps (budget : Nat)
  | step (mode : StepMode)
  | requestPause
  | stop
  | provideInput (line : String)
  | cancelInput
deriving DecidableEq, Repr

/-- The session after a command. -/
def Session.perform (image : Image) (fuel : Nat) (s : Session) : Command → Option Session
  | .addBreakpoint line => some (s.addBreakpoint line)
  | .removeBreakpoint line => some (s.removeBreakpoint line)
  | .resume => s.run image fuel none
  | .runSteps budget => s.run image fuel (some budget)
  | .step mode => s.step image fuel mode
  | .requestPause => some s.requestPause
  | .stop => some s.stop
  | .provideInput line => s.provideInput image fuel line
  | .cancelInput => some (s.cancelInput image)

end NumericScript
