import NumericScript.Machine.Snapshot
import NumericScript.Proofs.Session

/-! # Code that mirrors other code

A host sees the same of two pieces of code if their instructions have the same lines and labels
and the machine makes the same steps in both, as far as it comes to them.

* `Image.Mirrors`: code that makes the same steps where something holds of the machine.
* `Image.SameSessions`: a host that gives the same commands sees the same after each of them.
* `Image.Mirrors.sameSessions`: that is so for code that mirrors other code. -/

namespace NumericScript

/-- What of an instruction decides whether a session pauses before it. -/
def Instr.face (i : Instr) : Nat × Option Label := (i.line, i.op.label?)

namespace Image

/-- Something that holds of machines at the start and stays so at every step. -/
structure Keeps (image : Image) (ok : Machine → Prop) : Prop where
  start : ok image.start
  running : ∀ m m', ok m → m.step image = .running m' → ok m'
  answered : ∀ m m' dest ty line v, ok m → m.step image = .awaiting m' dest ty →
    Value.ofInput line ty = .ok v → ok (m'.write dest v).next

theorem Keeps.trivial (image : Image) : image.Keeps fun _ => True :=
  ⟨True.intro, fun _ _ _ _ => True.intro, fun _ _ _ _ _ _ _ _ _ => True.intro⟩

/-- Code whose instructions look the same to a host and make the same steps where something
holds of the machine. -/
structure Mirrors (image' image : Image) (ok : Machine → Prop) : Prop where
  face : ∀ k : Nat, (image'.instrs[k]?).map Instr.face = (image.instrs[k]?).map Instr.face
  settings : image'.settings = image.settings
  step : ∀ m, ok m → m.step image' = m.step image

end Image

namespace Session

variable {image image' : Image} {ok : Machine → Prop} {s s' : Session}

/-- Something holds of the machine of a session whenever that goes on. -/
def Holds (ok : Machine → Prop) (s : Session) : Prop :=
  match s.status with
  | .awaitingInput dest ty =>
    ∀ line v, Value.ofInput line ty = .ok v → ok (s.machine.write dest v).next
  | .halted _ => True
  | _ => ok s.machine

theorem holds_of_canRun (h : s.status.canRun = true) : Holds ok s ↔ ok s.machine := by
  unfold Holds
  cases hs : s.status <;> first | rfl | (rw [hs] at h; cases h)

theorem holds_of_isHalted (h : s.status.isHalted = true) : Holds ok s := by
  unfold Holds
  cases hs : s.status <;> first | trivial | (rw [hs] at h; cases h)

/-- Of a session that can run, only the machine matters. -/
theorem Holds.of_canRun (h : Holds ok s) (hs : s.status.canRun = true)
    (hm : s'.machine = s.machine) (hs' : s'.status.canRun = true) : Holds ok s' :=
  (holds_of_canRun hs').2 (by rw [hm]; exact (holds_of_canRun hs).1 h)

/-- Only the machine and the status matter. -/
theorem Holds.of_eq (h : Holds ok s) (hm : s'.machine = s.machine)
    (hs : s'.status = s.status) : Holds ok s' := by
  unfold Holds at h ⊢
  rwa [hs, hm]

/-! ### What commands keep -/

theorem holds_turn (hk : image.Keeps ok) (h : Holds ok s) (hs : s.status = .running) :
    Holds ok (s.turn image) := by
  have hcan : s.status.canRun = true := by rw [hs]; rfl
  have hok := (holds_of_canRun hcan).1 h
  unfold turn
  split
  · exact h.of_canRun hcan rfl rfl
  · cases hstep : s.machine.step image with
    | running m =>
      have hok' : ok m := hk.running _ _ hok hstep
      refine (holds_of_canRun ?_).2 hok'
      exact hcan
    | finished m => exact holds_of_isHalted rfl
    | awaiting m dest ty => exact fun line v hv => hk.answered _ _ dest ty line v hok hstep hv
    | faulted m f => exact holds_of_isHalted (status_fault _ _)

theorem Holds.run (hk : image.Keeps ok) (h : Holds ok s) {fuel : Nat} {budget : Option Nat}
    (hs : s.run image fuel budget = some s') : Holds ok s' := by
  unfold Session.run at hs
  split at hs
  · rename_i hcan
    refine drive_keeps (fun t ht hP => holds_turn hk hP ht) (fun _ t ht hP => ?_) hs rfl
      (h.of_canRun hcan rfl rfl)
    exact hP.of_canRun (by rw [ht]; rfl) rfl rfl
  · cases hs
    exact h

theorem Holds.perform (hk : image.Keeps ok) (h : Holds ok s) {fuel : Nat} {command : Command}
    (hs : s.perform image fuel command = some s') : Holds ok s' := by
  cases command with
  | addBreakpoint line => cases hs; exact h.of_eq rfl rfl
  | removeBreakpoint line => cases hs; exact h.of_eq rfl rfl
  | resume => exact h.run hk hs
  | runSteps budget => exact h.run hk hs
  | step mode =>
    change s.step image fuel mode = some s' at hs
    unfold Session.step at hs
    split at hs
    · have hstepping : Holds ok { s with
          stepping := some ⟨mode, s.machine.depth⟩, resumeAt := some s.machine.pc } :=
        h.of_eq rfl rfl
      exact hstepping.run hk hs
    · cases hs
      exact h
  | requestPause =>
    cases hs
    unfold requestPause
    split
    · exact h
    · exact h.of_eq rfl rfl
  | stop =>
    cases hs
    unfold stop
    split
    · exact h
    · exact holds_of_isHalted rfl
  | provideInput line =>
    change s.provideInput image fuel line = some s' at hs
    unfold provideInput at hs
    cases hst : s.status with
    | awaitingInput dest ty =>
      simp only [hst] at hs
      unfold Holds at h
      rw [hst] at h
      cases hv : Value.ofInput line ty with
      | ok v =>
        rw [hv] at hs
        have hanswered : Holds ok
            { s with machine := (s.machine.write dest v).next, status := .running } :=
          (holds_of_canRun rfl).2 (h line v hv)
        exact hanswered.run hk hs
      | error f =>
        rw [hv] at hs
        cases hs
        exact holds_of_isHalted (status_fault _ _)
    | _ =>
      simp only [hst] at hs
      cases hs
      exact h
  | cancelInput =>
    cases hs
    unfold cancelInput
    split
    · exact holds_of_isHalted rfl
    · exact h

end Session

/-! ### Code that mirrors other code -/

namespace Image.Mirrors

variable {image image' : Image} {ok : Machine → Prop} {s : Session}

theorem line?_eq (h : image'.Mirrors image ok) (k : Nat) : image'.line? k = image.line? k := by
  have hface := congrArg (Option.map Prod.fst) (h.face k)
  simpa only [Image.line?, Option.map_map, Function.comp_def, Instr.face] using hface

theorem start_eq (h : image'.Mirrors image ok) : image'.start = image.start := by
  rw [Image.start, Image.start, h.line?_eq, h.settings]

theorem session_start_eq (h : image'.Mirrors image ok) :
    Session.start image' = Session.start image := by
  rw [Session.start, Session.start, h.start_eq]

theorem fault_eq (h : image'.Mirrors image ok) (s : Session) (f : Fault) :
    s.fault image' f = s.fault image f := by
  simp only [Session.fault, Session.line?, h.line?_eq]

theorem inspect_eq (h : image'.Mirrors image ok) (s : Session) :
    s.inspect image' = s.inspect image := by
  simp only [Session.inspect, Session.frameLine, Session.line?, h.line?_eq]

theorem pauseNow?_eq (h : image'.Mirrors image ok) (s : Session) :
    s.pauseNow? image' = s.pauseNow? image := by
  have hface := h.face s.machine.pc
  unfold Session.pauseNow?
  cases hi : image.instrs[s.machine.pc]? with
  | none =>
    rw [hi, Option.map_none, Option.map_eq_none_iff] at hface
    rw [hface]
  | some i =>
    rw [hi, Option.map_some, Option.map_eq_some_iff] at hface
    obtain ⟨i', hi', heq⟩ := hface
    rw [hi']
    have hline : i'.line = i.line := congrArg Prod.fst heq
    have hlabel : i'.op.label? = i.op.label? := congrArg Prod.snd heq
    simp only [hline, hlabel]

theorem turn_eq (h : image'.Mirrors image ok) (hok : ok s.machine) :
    s.turn image' = s.turn image := by
  have hrecord : ∀ o, s.record image' o = s.record image o := by
    intro o
    cases o with
    | faulted m f => exact h.fault_eq _ f
    | _ => rfl
  rw [Session.turn, Session.turn, h.pauseNow?_eq, h.step _ hok, hrecord]

theorem drive_eq (h : image'.Mirrors image ok) (hk : image.Keeps ok) {fuel : Nat}
    {budget : Option Nat} (hs : s.status = .running) (hok : s.Holds ok) :
    Session.drive image' fuel budget s = Session.drive image fuel budget s := by
  induction fuel generalizing budget s with
  | zero => rfl
  | succ fuel ih =>
    have hcan : s.status.canRun = true := by rw [hs]; rfl
    have hturn := h.turn_eq ((Session.holds_of_canRun hcan).1 hok)
    rw [Session.drive, Session.drive, hturn]
    split
    · rfl
    dsimp only
    split
    · exact ih ‹_› (Session.holds_turn hk hok hs)
    · rfl

theorem run_eq (h : image'.Mirrors image ok) (hk : image.Keeps ok) (hok : s.Holds ok)
    (fuel : Nat) (budget : Option Nat) :
    s.run image' fuel budget = s.run image fuel budget := by
  unfold Session.run
  split
  · rename_i hcan
    exact h.drive_eq hk rfl (hok.of_canRun hcan rfl rfl)
  · rfl

/-- What a command makes of a session is the same. -/
theorem perform_eq (h : image'.Mirrors image ok) (hk : image.Keeps ok) (hok : s.Holds ok)
    (fuel : Nat) (command : Command) :
    s.perform image' fuel command = s.perform image fuel command := by
  cases command with
  | resume => exact h.run_eq hk hok fuel none
  | runSteps budget => exact h.run_eq hk hok fuel (some budget)
  | step mode =>
    show s.step image' fuel mode = s.step image fuel mode
    unfold Session.step
    split
    · have hstepping : Session.Holds ok { s with
          stepping := some ⟨mode, s.machine.depth⟩, resumeAt := some s.machine.pc } :=
        hok.of_eq rfl rfl
      exact h.run_eq hk hstepping fuel none
    · rfl
  | provideInput line =>
    show s.provideInput image' fuel line = s.provideInput image fuel line
    unfold Session.provideInput
    cases hst : s.status with
    | awaitingInput dest ty =>
      dsimp only
      unfold Session.Holds at hok
      rw [hst] at hok
      cases hv : Value.ofInput line ty with
      | ok v =>
        refine h.run_eq hk ?_ fuel none
        exact (Session.holds_of_canRun rfl).2 (hok line v hv)
      | error f => exact congrArg some (h.fault_eq s f)
    | _ => rfl
  | cancelInput =>
    show some (s.cancelInput image') = some (s.cancelInput image)
    unfold Session.cancelInput
    split
    · rw [h.fault_eq]
    · rfl
  | addBreakpoint line | removeBreakpoint line | requestPause | stop => rfl

end Image.Mirrors

/-- The session after all commands of a list, one after the other. -/
def Session.performAll (image : Image) (fuel : Nat) (commands : List Command) (s : Session) :
    Option Session :=
  commands.foldlM (fun s command => s.perform image fuel command) s

theorem Image.Mirrors.performAll_eq {image image' : Image} {ok : Machine → Prop} {s : Session}
    (h : image'.Mirrors image ok) (hk : image.Keeps ok) (hok : s.Holds ok) (fuel : Nat)
    (commands : List Command) :
    s.performAll image' fuel commands = s.performAll image fuel commands := by
  induction commands generalizing s with
  | nil => rfl
  | cons command commands ih =>
    rw [Session.performAll, Session.performAll, List.foldlM_cons, List.foldlM_cons,
      h.perform_eq hk hok]
    cases hs : s.perform image fuel command with
    | none => rfl
    | some s' => exact ih (hok.perform hk hs)

/-- A host that gives the same commands cannot tell the code at hand: the sessions start alike,
they are the same after every list of commands, or do not come to rest within the same number of
turns, and a look into them shows the same. -/
structure Image.SameSessions (image' image : Image) : Prop where
  start : Session.start image' = Session.start image
  performAll : ∀ fuel commands, (Session.start image').performAll image' fuel commands =
    (Session.start image).performAll image fuel commands
  line : ∀ s : Session, s.line? image' = s.line? image
  inspect : ∀ s : Session, s.inspect image' = s.inspect image

namespace Image

theorem SameSessions.refl (image : Image) : image.SameSessions image :=
  ⟨rfl, fun _ _ => rfl, fun _ => rfl, fun _ => rfl⟩

theorem SameSessions.trans {a b c : Image} (h : a.SameSessions b) (h' : b.SameSessions c) :
    a.SameSessions c where
  start := h.start.trans h'.start
  performAll fuel commands := (h.performAll fuel commands).trans (h'.performAll fuel commands)
  line s := (h.line s).trans (h'.line s)
  inspect s := (h.inspect s).trans (h'.inspect s)

/-- Code that mirrors other code is not told from it. -/
theorem Mirrors.sameSessions {image image' : Image} {ok : Machine → Prop}
    (h : image'.Mirrors image ok) (hk : image.Keeps ok) : image'.SameSessions image where
  start := h.session_start_eq
  performAll fuel commands := by
    rw [h.session_start_eq]
    exact h.performAll_eq hk ((Session.holds_of_canRun rfl).2 hk.start) fuel commands
  line s := h.line?_eq s.machine.pc
  inspect := h.inspect_eq

end Image

end NumericScript
