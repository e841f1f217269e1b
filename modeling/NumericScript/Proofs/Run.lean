import NumericScript.Run

/-! # Runs as sequences of steps

A run lets a session drive the machine within a bound on turns and answers requests for input
in between.  No breakpoints are set and nobody asks for a pause, so that a run is a sequence of
steps, some of which read a line of input.

* `Image.exists_run_iff`: a run comes to an end within some bound if and only if the sequence
  of steps does, and both with the same outcome.
* `Image.Halts.unique`: there is at most one outcome. -/

namespace NumericScript

/-- A machine and the lines of input that it has not read. -/
structure Point where
  machine : Machine
  unread : List String

/-- What a step of a run leads to. -/
inductive Advance where
  | next (p : Point)
  | done (o : RunOutcome)

namespace Image

/-- The outcome of a run that ends in a fault. -/
def faultOutcome (image : Image) (m : Machine) (f : Fault) (unread : List String) :
    RunOutcome :=
  if f = .overflow then ⟨.halted .aborted, m.output, [], unread⟩
  else
    let d := Diagnostic.error .runtime f.message ((image.line? m.pc).getD 0) 1
    ⟨.halted .fault, m.output, [d], unread⟩

/-- The outcome of a run that asks for input in vain. -/
def cancelOutcome (image : Image) (m : Machine) : RunOutcome :=
  let d := Diagnostic.error .runtime Fault.inputCancelled.message ((image.line? m.pc).getD 0) 1
  ⟨.halted .cancelled, m.output, [d], []⟩

/-- A step of a run: a step of the machine, and if that asks for input, reading a line. -/
def advance (image : Image) (p : Point) : Advance :=
  match p.machine.step image with
  | .running m => .next ⟨m, p.unread⟩
  | .finished m => .done ⟨.halted .finished, m.output, [], p.unread⟩
  | .faulted m f => .done (image.faultOutcome m f p.unread)
  | .awaiting m dest ty =>
    match p.unread with
    | [] => .done (image.cancelOutcome m)
    | line :: rest =>
      match Value.ofInput line ty with
      | .ok v => .next ⟨(m.write dest v).next, rest⟩
      | .error f => .done (image.faultOutcome m f rest)

/-- The run from `p` comes to an end with an outcome. -/
inductive Halts (image : Image) : Point → RunOutcome → Prop where
  | done {p : Point} {o : RunOutcome} (h : image.advance p = .done o) : Halts image p o
  | next {p q : Point} {o : RunOutcome} (h : image.advance p = .next q)
      (hq : Halts image q o) : Halts image p o

/-- The run from `p` comes to `q`. -/
inductive Reaches (image : Image) (p : Point) : Point → Prop where
  | refl : Reaches image p p
  | tail {q r : Point} (hq : Reaches image p q) (h : image.advance q = .next r) :
      Reaches image p r

/-- Where a run starts. -/
def startPoint (image : Image) (lines : List String) : Point := ⟨image.start, lines⟩

variable {image : Image}

theorem Halts.unique {p : Point} {o o' : RunOutcome} (h : image.Halts p o)
    (h' : image.Halts p o') : o = o' := by
  induction h with
  | done h =>
    cases h' with
    | done h' => rw [h] at h'; cases h'; rfl
    | next h' _ => rw [h] at h'; cases h'
  | next h _ ih =>
    cases h' with
    | done h' => rw [h] at h'; cases h'
    | next h' hq => rw [h] at h'; cases h'; exact ih hq

theorem Reaches.head {p q r : Point} (h : image.advance p = .next q)
    (hr : image.Reaches q r) : image.Reaches p r := by
  induction hr with
  | refl => exact .tail .refl h
  | tail _ h' ih => exact .tail ih h'

theorem Halts.of_reaches {p q : Point} {o : RunOutcome} (hpq : image.Reaches p q)
    (h : image.Halts q o) : image.Halts p o := by
  induction hpq with
  | refl => exact h
  | tail _ h' ih => exact ih (.next h' h)

end Image

/-! ### Sessions without interruptions -/

namespace Session

variable {image : Image}

/-- A session that lets its machine run and has no reason to pause. -/
def going (m : Machine) : Session := ⟨m, .running, [], [], none, false, none⟩

theorem pauseNow?_going (m : Machine) : (going m).pauseNow? image = none := by
  simp only [pauseNow?, going]
  cases image.instrs[m.pc]? <;> simp [pauseReason?]

theorem turn_going (m : Machine) :
    (going m).turn image = (going m).record image (m.step image) := by
  rw [turn, pauseNow?_going]
  rfl

theorem status_fault (s : Session) (f : Fault) : (s.fault image f).status.isHalted := by
  unfold fault
  split <;> rfl

theorem record_going_faulted (m m' : Machine) (f : Fault) :
    (going m).record image (.faulted m' f) = (going m').fault image f := rfl

theorem record_going_awaiting (m m' : Machine) (dest : Place) (ty : Ty) :
    (going m).record image (.awaiting m' dest ty) =
      ⟨m', .awaitingInput dest ty, [], [], none, false, none⟩ := rfl

theorem drive_going (fuel : Nat) (m : Machine) :
    drive image (fuel + 1) none (going m) =
      match m.step image with
      | .running m' => drive image fuel none (going m')
      | o => some ((going m).record image o) := by
  rw [drive, if_neg (by simp), turn_going]
  cases h : m.step image with
  | running m' => rfl
  | finished m' => rfl
  | awaiting m' dest ty => rfl
  | faulted m' f =>
    have hs : ((going m').fault image f).status ≠ .running := by
      intro h
      have hs : ((going m').fault image f).status.isHalted := status_fault (going m') f
      rw [h] at hs
      cases hs
    rw [record_going_faulted, if_neg hs]
    rfl

theorem answerAll_of_isHalted {s : Session} (h : s.status.isHalted) (fuel : Nat)
    (lines : List String) : answerAll image fuel lines s = some (s, lines) := by
  unfold answerAll
  cases hs : s.status <;> simp_all [Status.isHalted]

theorem provideInput_mono {fuel fuel' : Nat} {line : String} {s r : Session}
    (h : provideInput image fuel line s = some r) (hle : fuel ≤ fuel') :
    provideInput image fuel' line s = some r := by
  unfold provideInput at h ⊢
  split at h
  · split at h
    · unfold run at h ⊢
      split at h
      · rw [if_pos (by assumption)]
        exact drive_mono h hle
      · rwa [if_neg (by assumption)]
    · exact h
  · exact h

theorem answerAll_mono {fuel fuel' : Nat} {lines : List String} {s : Session}
    {r : Session × List String} (h : answerAll image fuel lines s = some r)
    (hle : fuel ≤ fuel') : answerAll image fuel' lines s = some r := by
  induction lines generalizing s with
  | nil =>
    unfold answerAll at h ⊢
    split at h <;> simp_all
  | cons line rest ih =>
    unfold answerAll at h ⊢
    cases hs : s.status with
    | awaitingInput dest ty =>
      rw [hs] at h
      obtain ⟨t, ht, hr⟩ := Option.bind_eq_some_iff.1 h
      exact Option.bind_eq_some_iff.2 ⟨t, provideInput_mono ht hle, ih hr⟩
    | _ => rw [hs] at h; exact h

/-- What a session amounts to when no lines are left but `unread`. -/
def outcome (s : Session) (unread : List String) : RunOutcome :=
  ⟨s.status, s.machine.output, s.diagnostics, unread⟩

theorem outcome_fault (m : Machine) (f : Fault) (status : Status) (unread : List String) :
    (fault image ⟨m, status, [], [], none, false, none⟩ f).outcome unread =
      image.faultOutcome m f unread := by
  unfold fault Image.faultOutcome outcome
  split <;> rfl

theorem provideInput_awaiting (fuel : Nat) (line : String) (m : Machine) (dest : Place)
    (ty : Ty) :
    provideInput image fuel line ⟨m, .awaitingInput dest ty, [], [], none, false, none⟩ =
      match Value.ofInput line ty with
      | .ok v => drive image fuel none (going (m.write dest v).next)
      | .error f =>
        some (fault image ⟨m, .awaitingInput dest ty, [], [], none, false, none⟩ f) := by
  unfold provideInput
  dsimp only
  cases Value.ofInput line ty <;> rfl

/-! ### Runs and sequences of steps -/

/-- A session that comes to rest and gets its input has taken steps to an outcome, if that
holds after the first line is read. -/
theorem halts_of_answerAll_of_reads {fuel bound : Nat} {m : Machine} {s t : Session}
    {lines unread : List String} (hs : drive image bound none (going m) = some s)
    (ht : answerAll image fuel lines s = some (t, unread))
    (hread : ∀ line rest, lines = line :: rest → ∀ m' u,
      drive image fuel none (going m') = some u →
      answerAll image fuel rest u = some (t, unread) →
      image.Halts ⟨m', rest⟩ (t.outcome unread)) :
    image.Halts ⟨m, lines⟩ (t.outcome unread) := by
  induction bound generalizing m with
  | zero => cases hs
  | succ bound ih =>
    rw [drive_going] at hs
    cases hstep : m.step image with
    | running m' =>
      rw [hstep] at hs
      exact .next (by simp [Image.advance, hstep]) (ih hs)
    | finished m' =>
      rw [hstep] at hs
      cases hs
      rw [answerAll_of_isHalted rfl] at ht
      cases ht
      exact .done (by simp [Image.advance, hstep, outcome, record, going])
    | faulted m' f =>
      rw [hstep] at hs
      cases hs
      rw [record_going_faulted, answerAll_of_isHalted (status_fault _ _)] at ht
      cases ht
      refine .done ?_
      simp only [Image.advance, hstep]
      exact congrArg Advance.done (outcome_fault m' f .running lines).symm
    | awaiting m' dest ty =>
      rw [hstep] at hs
      cases hs
      rw [record_going_awaiting] at ht
      cases lines with
      | nil =>
        cases ht
        exact .done (by simp only [Image.advance, hstep]; rfl)
      | cons line rest =>
        obtain ⟨u, hu, ht⟩ := Option.bind_eq_some_iff.1 ht
        rw [provideInput_awaiting] at hu
        cases hv : Value.ofInput line ty with
        | ok v =>
          rw [hv] at hu
          exact .next (by simp [Image.advance, hstep, hv]) (hread line rest rfl _ u hu ht)
        | error f =>
          rw [hv] at hu
          cases hu
          rw [answerAll_of_isHalted (status_fault _ _)] at ht
          cases ht
          refine .done ?_
          simp only [Image.advance, hstep, hv]
          exact congrArg Advance.done (outcome_fault m' f _ _).symm

/-- A session that comes to rest and gets its input has taken steps to an outcome. -/
theorem halts_of_answerAll {fuel bound : Nat} {m : Machine} {s t : Session}
    {lines unread : List String} (hs : drive image bound none (going m) = some s)
    (ht : answerAll image fuel lines s = some (t, unread)) :
    image.Halts ⟨m, lines⟩ (t.outcome unread) := by
  -- The bound on turns begins anew with every line that is read.
  induction hn : lines.length generalizing bound m s lines with
  | zero => exact halts_of_answerAll_of_reads hs ht fun line rest h =>
      absurd hn (by simp [h])
  | succ n ih =>
    refine halts_of_answerAll_of_reads hs ht fun line rest h m' u hu ht => ?_
    exact ih hu ht (by simpa [h] using hn)

/-- A session without interruptions goes on from `p` until it is over, and is `t` then, with
some lines unread. -/
def Completes (image : Image) (p : Point) (t : Session) (unread : List String) : Prop :=
  ∃ fuel s, drive image fuel none (going p.machine) = some s ∧
    answerAll image fuel p.unread s = some (t, unread)

theorem Completes.of_isHalted {p : Point}
    (h : ((going p.machine).record image (p.machine.step image)).status.isHalted) :
    Completes image p ((going p.machine).record image (p.machine.step image)) p.unread := by
  refine ⟨1, (going p.machine).record image (p.machine.step image), ?_,
    answerAll_of_isHalted h _ _⟩
  rw [drive_going]
  cases hstep : p.machine.step image with
  | running m => rw [hstep] at h; cases h
  | _ => rfl

theorem Completes.of_refused {m m' : Machine} {line : String} {rest : List String} {dest : Place}
    {ty : Ty} {f : Fault} (hstep : m.step image = .awaiting m' dest ty)
    (hv : Value.ofInput line ty = .error f) :
    Completes image ⟨m, line :: rest⟩
      (fault image ⟨m', .awaitingInput dest ty, [], [], none, false, none⟩ f) rest := by
  have hp := @provideInput_awaiting image 1 line m' dest ty
  rw [hv] at hp
  refine ⟨1, ⟨m', .awaitingInput dest ty, [], [], none, false, none⟩, ?_,
    Option.bind_eq_some_iff.2 ⟨_, hp, answerAll_of_isHalted (status_fault _ _) _ _⟩⟩
  rw [drive_going, hstep]
  rfl

theorem Completes.of_next {p q : Point} {t : Session} {unread : List String}
    (h : image.advance p = .next q) (hq : Completes image q t unread) :
    Completes image p t unread := by
  rcases p with ⟨m, lines⟩
  obtain ⟨fuel, s, hs, ht⟩ := hq
  refine ⟨fuel + 1, ?_⟩
  rw [drive_going]
  unfold Image.advance at h
  dsimp only at h ⊢
  cases hstep : m.step image with
  | running m' =>
    rw [hstep] at h
    cases h
    exact ⟨s, hs, answerAll_mono ht (Nat.le_succ fuel)⟩
  | finished m' => rw [hstep] at h; cases h
  | faulted m' f => rw [hstep] at h; cases h
  | awaiting m' dest ty =>
    rw [hstep] at h
    cases lines with
    | nil => cases h
    | cons line rest =>
      dsimp only at h
      cases hv : Value.ofInput line ty with
      | error f => rw [hv] at h; cases h
      | ok v =>
        rw [hv] at h
        cases h
        have hp := @provideInput_awaiting image fuel line m' dest ty
        rw [hv] at hp
        exact ⟨_, rfl, Option.bind_eq_some_iff.2
          ⟨s, provideInput_mono (hp.trans hs) (Nat.le_succ fuel),
            answerAll_mono ht (Nat.le_succ fuel)⟩⟩

theorem Completes.of_reaches {p q : Point} {t : Session} {unread : List String}
    (h : image.Reaches p q) (hq : Completes image q t unread) : Completes image p t unread := by
  induction h with
  | refl => exact hq
  | tail _ h ih => exact ih (hq.of_next h)

/-- A step to an outcome is one of a session that is over after it. -/
theorem exists_completes_of_done {p : Point} {o : RunOutcome} (h : image.advance p = .done o) :
    ∃ t unread, Completes image p t unread ∧ t.outcome unread = o := by
  have hover := @Completes.of_isHalted image p
  rcases p with ⟨m, lines⟩
  unfold Image.advance at h
  dsimp only at h hover
  cases hstep : m.step image with
  | running m' => rw [hstep] at h; cases h
  | finished m' =>
    rw [hstep] at h hover
    cases h
    exact ⟨_, _, hover rfl, rfl⟩
  | faulted m' f =>
    rw [hstep] at h hover
    cases h
    exact ⟨_, _, hover (status_fault _ _), outcome_fault m' f .running lines⟩
  | awaiting m' dest ty =>
    rw [hstep] at h
    cases lines with
    | nil =>
      cases h
      exact ⟨_, _, ⟨1, _, by rw [drive_going, hstep], rfl⟩, rfl⟩
    | cons line rest =>
      dsimp only at h
      cases hv : Value.ofInput line ty with
      | ok v => rw [hv] at h; cases h
      | error f =>
        rw [hv] at h
        cases h
        exact ⟨_, _, .of_refused hstep hv, outcome_fault m' f _ rest⟩

/-- A sequence of steps to an outcome is one of a session that comes to rest. -/
theorem exists_completes_of_halts {p : Point} {o : RunOutcome} (h : image.Halts p o) :
    ∃ t unread, Completes image p t unread ∧ t.outcome unread = o := by
  induction h with
  | done h => exact exists_completes_of_done h
  | next h _ ih =>
    obtain ⟨t, unread, ht, ho⟩ := ih
    exact ⟨t, unread, ht.of_next h, ho⟩

end Session

namespace Image

/-- A run comes to an end within some bound if and only if the sequence of its steps does. -/
theorem exists_run_iff {image : Image} {lines : List String} {o : RunOutcome} :
    (∃ fuel, image.run fuel lines = some o) ↔ image.Halts (image.startPoint lines) o := by
  constructor
  · rintro ⟨fuel, h⟩
    obtain ⟨s, hs, h⟩ := Option.bind_eq_some_iff.1 h
    obtain ⟨⟨t, unread⟩, ht, h⟩ := Option.bind_eq_some_iff.1 h
    cases h
    exact Session.halts_of_answerAll (m := image.start) hs ht
  · intro h
    obtain ⟨t, unread, ⟨fuel, s, hs, ht⟩, ho⟩ := Session.exists_completes_of_halts h
    exact ⟨fuel, Option.bind_eq_some_iff.2 ⟨s, hs,
      Option.bind_eq_some_iff.2 ⟨(t, unread), ht, congrArg some ho⟩⟩⟩

end Image

/-- Code has at most one outcome, within whatever bound it comes to its end. -/
theorem Code.run_unique {c : Code} {settings : MachineSettings} {lines : List String}
    {o o' : RunOutcome} (h : ∃ fuel, c.run settings fuel lines = some o)
    (h' : ∃ fuel, c.run settings fuel lines = some o') : o = o' := by
  unfold Code.run at h h'
  cases himage : Image.ofCode c settings with
  | ok image =>
    rw [himage] at h h'
    exact (Image.exists_run_iff.1 h).unique (Image.exists_run_iff.1 h')
  | error e =>
    rw [himage] at h h'
    obtain ⟨fuel, ho⟩ := h
    obtain ⟨fuel', ho'⟩ := h'
    exact Option.some.inj (ho.symm.trans ho')

end NumericScript
