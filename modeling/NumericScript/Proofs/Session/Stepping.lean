import NumericScript.Proofs.Session.Passage

/-! # Steps

A step lets a session go on and pauses it before an instruction at a depth where the step ends.  The
instruction at which it begins is executed whatever its depth, and behind it none is executed at
which the step could have ended.  A label is no instruction to be executed, so a step that begins at
one may end before it has executed any.

* `Session.Executes`: the machines that a session goes through until it comes to rest.
* `Session.exists_executes_of_step`: what a step goes through.
* `Session.step_progress`: how many instructions a step executes.
* `Session.step_within_depth`: at which depths steps over and out of calls execute them. -/

namespace NumericScript

/-- A step that does not leave the frame only goes past instructions that are deeper. -/
theorem StepRequest.lt_of_endsAt_eq_false {r : StepRequest} {depth : Nat} (hr : r.mode ≠ .out)
    (h : r.endsAt depth = false) : r.depth < depth := by
  unfold endsAt at h
  split at h
  · cases h
  · simpa using h
  · exact absurd (by assumption) hr

/-- Where instructions deeper than a run's beginning would have to be executed first, it has passed
labels only. -/
theorem Image.acts_eq_false_of_passes {image : Image} {p q : Point} {past : List Machine}
    (h : image.Passes p past q)
    (hpast : ∀ m ∈ past, image.acts m = true → p.machine.depth < m.depth) :
    ∀ m ∈ past, image.acts m = false := by
  induction h with
  | refl => simp
  | @tail past q r hq _ ih =>
    obtain ⟨hm, hpast⟩ := List.forall_mem_cons.1 hpast
    have hlabels := ih hpast
    have hdepth := Image.depth_of_passes hq hlabels
    refine List.forall_mem_cons.2 ⟨Bool.eq_false_iff.2 fun ha => ?_, hlabels⟩
    have hlt := hm ha
    omega

namespace Session

variable {image : Image} {s t r : Session} {past : List Machine} {fuel : Nat} {mode : StepMode}
  {req : StepRequest} {reason : PauseReason}

/-! ### What a session goes through -/

/-- From the session `s` its machine goes through those of `trail`, the last first, until the
session `r` is at rest: it pauses behind the last of them, or the step of the last stops it. -/
inductive Executes (image : Image) (s r : Session) : List Machine → Prop where
  | pauses {trail : List Machine} (hp : image.Passes ⟨s.machine, []⟩ trail ⟨r.machine, []⟩)
      (hr : r.status.canRun = true) : Executes image s r trail
  | stops {past : List Machine} {m : Machine} (hp : image.Passes ⟨s.machine, []⟩ past ⟨m, []⟩)
      (hm : ∀ m', m.step image ≠ .running m') (hr : r.machine = (m.step image).machine)
      (hs : r.status.canRun = false) : Executes image s r (m :: past)

theorem Executes.passes {trail : List Machine} (h : Executes image s r trail)
    (hr : r.status.canRun = true) : image.Passes ⟨s.machine, []⟩ trail ⟨r.machine, []⟩ := by
  cases h with
  | pauses hp => exact hp
  | stops _ _ _ hs =>
    rw [hr] at hs
    cases hs

/-! ### Pauses of steps -/

/-- A session with a step under way pauses where the step ends, unless it does so for another
reason. -/
theorem pauseReason?_of_stepping (hs : s.stepping = some req) (line : Nat) :
    (s.pauseReason? line = none ∧ req.endsAt s.machine.depth = false) ∨
      (s.pauseReason? line = some .step ∧ req.endsAt s.machine.depth = true) ∨
      ∃ reason, s.pauseReason? line = some reason ∧ reason ≠ .step ∧
        (s.pauseRequested = true ∨ s.breakpoints ≠ []) := by
  unfold pauseReason?
  rw [hs]
  split
  · exact .inr (.inr ⟨.requested, rfl, by decide, .inl (by assumption)⟩)
  · split
    · rename_i hb
      exact .inr (.inr ⟨.breakpoint line, rfl, PauseReason.noConfusion,
        .inr (List.ne_nil_of_mem hb.2)⟩)
    · cases he : req.endsAt s.machine.depth with
      | true => exact .inr (.inl ⟨by simp [he], rfl⟩)
      | false => exact .inl ⟨by simp [he], rfl⟩

/-- A session does not go on before an instruction where a step under way ends. -/
theorem endsAt_of_pauseNow?_eq_none (hs : s.stepping = some req) (hr : s.resumeAt = none)
    (h : s.pauseNow? image = none) (ha : image.acts s.machine = true) :
    req.endsAt s.machine.depth = false := by
  obtain ⟨i, hi⟩ := Option.isSome_iff_exists.1 ha
  rw [pauseNow?_eq, hr, if_neg nofun, hi] at h
  change s.pauseReason? i.line = none at h
  obtain ⟨-, hends⟩ | ⟨hreason, -⟩ | ⟨reason, hreason, -⟩ := pauseReason?_of_stepping hs i.line
  · exact hends
  · rw [h] at hreason
    cases hreason
  · rw [h] at hreason
    cases hreason

/-- Behind the machine at which a step begins, the session goes on past no instruction at which the
step ends. -/
theorem GoesOn.endsAt (h : GoesOn image s past t) (hs : s.stepping = some req) :
    past = [] ∧ t = s ∨ ∃ later, past = later ++ [s.machine] ∧
      ∀ m ∈ later, image.acts m = true → req.endsAt m.depth = false := by
  induction h with
  | refl => exact .inl ⟨rfl, rfl⟩
  | @tail past t m ht hp _ ih =>
    obtain ⟨rfl, rfl⟩ | ⟨later, rfl, hlater⟩ := ih
    · exact .inr ⟨[], rfl, by simp⟩
    · have hstepping : t.stepping = some req := by rw [ht.eq]; exact hs
      have hresume : t.resumeAt = none := ht.resumeAt (by simp)
      exact .inr ⟨t.machine :: later, rfl, List.forall_mem_cons.2
        ⟨endsAt_of_pauseNow?_eq_none hstepping hresume hp, hlater⟩⟩

/-- A session whose machine stops asks for input or is over. -/
theorem status_record {o : Machine.Outcome} (ho : ∀ m, o ≠ .running m) :
    (s.record image o).status.isAwaiting = true ∨ (s.record image o).status.isHalted = true := by
  cases o with
  | running m => exact absurd rfl (ho m)
  | finished m => exact .inr rfl
  | awaiting m dest ty => exact .inl rfl
  | faulted m f => exact .inr (status_fault _ _)

/-! ### Steps -/

/-- A step executes the instruction at which it begins, if it begins at one, and behind it none at
which it ends.  With no breakpoint and no pause wanted, it pauses only where it ends. -/
theorem exists_executes_of_step (hs : s.status.canStep = true)
    (h : s.step image fuel mode = some r) : ∃ later, Executes image s r (later ++ [s.machine]) ∧
      (∀ m ∈ later, image.acts m = true →
        StepRequest.endsAt ⟨mode, s.machine.depth⟩ m.depth = false) ∧
      (r.status = .paused .step → image.acts r.machine = true ∧
        StepRequest.endsAt ⟨mode, s.machine.depth⟩ r.machine.depth = true) ∧
      (s.breakpoints = [] → s.pauseRequested = false →
        r.status = .paused .step ∨ r.status.isAwaiting = true ∨ r.status.isHalted = true) := by
  rw [Session.step, if_pos hs, Session.run, if_pos (Status.canRun_of_canStep hs)] at h
  obtain ⟨past, t, ht, ⟨rfl, hrest⟩ | ⟨hbudget, -⟩⟩ := exists_goesOn_of_drive h rfl
  swap
  · exact absurd rfl hbudget
  have heq := ht.eq
  have hstepping : t.stepping = some ⟨mode, s.machine.depth⟩ := by rw [heq]
  obtain ⟨reason, hp, hturn⟩ | ⟨hp, hturn, hstop⟩ := turn_cases (by rw [heq]) hrest
  · -- It pauses, but not where it begins.
    rw [pauseNow?_eq] at hp
    split at hp
    · cases hp
    rename_i hresume
    obtain ⟨i, hacts, hi⟩ := Option.bind_eq_some_iff.1 hp
    obtain ⟨rfl, rfl⟩ | ⟨later, rfl, hlater⟩ := ht.endsAt rfl
    · exact absurd rfl hresume
    rw [hturn]
    refine ⟨later, .pauses (ht.passes []) rfl, hlater, ?_⟩
    obtain ⟨hnone, -⟩ | ⟨hstep, hends⟩ | ⟨other, hother, hne, hwanted⟩ :=
      pauseReason?_of_stepping hstepping i.line
    · cases hi.symm.trans hnone
    · cases hi.symm.trans hstep
      exact ⟨fun _ => ⟨Option.isSome_iff_exists.2 ⟨i, hacts⟩, hends⟩, fun _ _ => .inl rfl⟩
    · cases hi.symm.trans hother
      refine ⟨fun hpaused => ?_, fun hb hpause => ?_⟩
      · cases hpaused
        exact absurd rfl hne
      · rw [heq] at hwanted
        simp [hb, hpause] at hwanted
  · have hstatus := @status_record image t _ hstop
    rw [← hturn] at hstatus
    have hcan := hstatus.elim Status.canRun_of_isAwaiting Status.canRun_of_isHalted
    have hstops : Executes image s (t.turn image) (t.machine :: past) :=
      .stops (ht.passes []) hstop (by rw [hturn, machine_record]) hcan
    have hpaused : (t.turn image).status ≠ .paused .step := fun hpaused => by
      rw [hpaused] at hcan
      cases hcan
    refine (ht.endsAt rfl).elim ?_ ?_
    · rintro ⟨rfl, rfl⟩
      exact ⟨[], hstops, by simp, fun h => absurd h hpaused, fun _ _ => .inr hstatus⟩
    · rintro ⟨later, rfl, hlater⟩
      have hresume : t.resumeAt = none := ht.resumeAt (by simp)
      exact ⟨t.machine :: later, hstops, List.forall_mem_cons.2
        ⟨endsAt_of_pauseNow?_eq_none hstepping hresume hp, hlater⟩,
        fun h => absurd h hpaused, fun _ _ => .inr hstatus⟩

/-- A step that pauses where it ends has executed the instruction at which it began, and a step into
calls no other.  If it began at a label, a step out of a call has executed some instruction, but the
other steps have executed none: they pause before the first. -/
theorem step_progress (hs : s.status.canStep = true) (h : s.step image fuel mode = some r)
    (hr : r.status = .paused .step) : image.acts r.machine = true ∧
      (image.acts s.machine = true → s.machine.executed < r.machine.executed ∧
        (mode = .into → r.machine.executed = s.machine.executed + 1)) ∧
      (image.acts s.machine = false →
        (mode = .out → s.machine.executed < r.machine.executed) ∧
        (mode ≠ .out → r.machine.executed = s.machine.executed)) := by
  obtain ⟨later, htrail, hlater, hends, -⟩ := exists_executes_of_step hs h
  obtain ⟨hacts, hends⟩ := hends hr
  have hpasses := htrail.passes (by rw [hr]; rfl)
  have hcount : r.machine.executed = s.machine.executed +
      (later.countP image.acts + if image.acts s.machine = true then 1 else 0) := by
    simpa only [List.countP_append, List.countP_singleton] using Image.executed_of_passes hpasses
  have hidle : later.countP image.acts = 0 ↔ ∀ m ∈ later, image.acts m = false := by
    simp [List.countP_eq_zero]
  refine ⟨hacts, fun hbegin => ?_, fun hbegin => ?_⟩ <;> rw [hbegin] at hcount
  · have hlater : mode = .into → later.countP image.acts = 0 := by
      rintro rfl
      exact hidle.2 fun m hm => Bool.eq_false_iff.2 fun ha => nomatch hlater m hm ha
    refine ⟨?_, fun hmode => ?_⟩
    · simp only [if_true] at hcount
      omega
    · rw [hcount, hlater hmode]
      rfl
  · have hcount : r.machine.executed = s.machine.executed + later.countP image.acts := hcount
    have hall : ∀ {P : Machine → Prop}, (∀ m ∈ later, P m) → P s.machine →
        ∀ m ∈ later ++ [s.machine], P m := fun hlater hm => List.forall_mem_append.2
      ⟨hlater, by simpa using hm⟩
    refine ⟨fun hmode => ?_, fun hmode => ?_⟩
    · -- Labels only would not have left the frame.
      have hsome : later.countP image.acts ≠ 0 := fun hnone => by
        have hdepth : r.machine.depth = s.machine.depth :=
          Image.depth_of_passes hpasses (hall (hidle.1 hnone) hbegin)
        rw [hmode, hdepth] at hends
        simp [StepRequest.endsAt] at hends
      omega
    · have hnone : later.countP image.acts = 0 := by
        refine hidle.2 fun m hm => Image.acts_eq_false_of_passes hpasses
          (hall (fun x hx ha => ?_) fun ha => ?_) m (List.mem_append_left _ hm)
        · exact StepRequest.lt_of_endsAt_eq_false hmode (hlater x hx ha)
        · rw [hbegin] at ha
          cases ha
      omega

/-- Code of which the main part calls a function in line 3 that prints in line 2. -/
def calling : Image where
  instrs := #[⟨.call (.user "f") 0, 3⟩, ⟨.print (.const (.str "over")) true, 4⟩, ⟨.halt, 4⟩,
    ⟨.label (.function "f"), 1⟩, ⟨.print (.const (.str "in")) true, 2⟩, ⟨.return none, 2⟩]
  functions := [("f", ⟨"f", .function "f", [], false, 1⟩)]
  labels := [(.function "f", 3)]
  settings := {}

/-- A step into the function executes the call, and a step out from its label some instruction. -/
theorem step_progress_calling : ∃ s t r,
    (start calling).step calling 9 .into = some s ∧ s.status = .paused .step ∧
    s.machine.executed = 1 ∧ (start calling).run calling 9 (some 1) = some t ∧
    calling.acts t.machine = false ∧ t.step calling 9 .out = some r ∧ r.status = .paused .step ∧
    t.machine.executed < r.machine.executed := by
  let s := ((start calling).step calling 9 .into).get (by decide +kernel)
  let t := ((start calling).run calling 9 (some 1)).get (by decide +kernel)
  let r := (t.step calling 9 .out).get (by decide +kernel)
  have hs : (start calling).step calling 9 .into = some s := (Option.some_get _).symm
  have hr : t.step calling 9 .out = some r := (Option.some_get _).symm
  have hpaused : s.status = .paused .step := by decide +kernel
  have hpaused' : r.status = .paused .step := by decide +kernel
  have hlabel : calling.acts t.machine = false := by decide +kernel
  exact ⟨s, t, r, hs, hpaused, ((step_progress rfl hs hpaused).2.1 rfl).2 rfl,
    (Option.some_get _).symm, hlabel, hr, hpaused',
    ((step_progress (by decide +kernel) hr hpaused').2.2 hlabel).1 rfl⟩

/-- The code of a loop that prints for ever.  It begins with a label. -/
def forever : Code where
  instrs := [⟨.label (.local 0), 1⟩, ⟨.jumpIfFalse (.const (.bool true)) (.local 1), 1⟩,
    ⟨.print (.const (.int 1)) true, 2⟩, ⟨.jump (.local 0), 2⟩, ⟨.label (.local 1), 2⟩, ⟨.halt, 2⟩]
  functions := []

/-- Not every step that pauses where it ends has executed an instruction: the first step of the loop
executes none. -/
theorem not_step_progress_forever : ¬ ∀ (c : Code) (settings : MachineSettings) (image : Image)
    (s r : Session) (fuel : Nat) (mode : StepMode), Image.ofCode c settings = .ok image →
      Leads image (start image) s → s.status.canStep = true → s.step image fuel mode = some r →
      r.status = .paused .step → s.machine.executed < r.machine.executed ∧
        (mode = .into → r.machine.executed = s.machine.executed + 1) := by
  intro h
  obtain ⟨image, hi⟩ : ∃ image, Image.ofCode forever {} = .ok image := ⟨_, rfl⟩
  obtain ⟨r, hr, hpaused, hidle⟩ : ∃ r, (start image).step image 9 .into = some r ∧
      r.status = .paused .step ∧ r.machine.executed = 0 := by
    cases hi
    exact ⟨_, rfl, rfl, rfl⟩
  have hlt := (h forever {} image _ r 9 .into hi .refl rfl hr hpaused).1
  rw [hidle] at hlt
  exact Nat.not_lt_zero _ hlt

/-- A step over calls executes, behind the instruction at which it begins, only instructions deeper
than that, and a step out of a call only instructions that are not less deep; and if they pause, it
is at a depth that was asked for.  So when they come to rest in another way, they have passed no
instruction before which they could have paused. -/
theorem step_within_depth (hs : s.status.canStep = true) (hb : s.breakpoints = [])
    (hp : s.pauseRequested = false) (h : s.step image fuel mode = some r) :
    ∃ later, Executes image s r (later ++ [s.machine]) ∧
      (r.status = .paused .step ∨ r.status.isAwaiting = true ∨ r.status.isHalted = true) ∧
      (mode = .over →
        (∀ m ∈ later, image.acts m = true → s.machine.depth < m.depth) ∧
        (r.status = .paused .step → r.machine.depth ≤ s.machine.depth)) ∧
      (mode = .out →
        (∀ m ∈ later ++ [s.machine], image.acts m = true → s.machine.depth ≤ m.depth) ∧
        (r.status = .paused .step → r.machine.depth < s.machine.depth)) := by
  obtain ⟨later, htrail, hlater, hends, hrest⟩ := exists_executes_of_step hs h
  refine ⟨later, htrail, hrest hb hp, ?_, ?_⟩
  · rintro rfl
    refine ⟨fun m hm ha => ?_, fun hr => ?_⟩
    · simpa [StepRequest.endsAt] using hlater m hm ha
    · simpa [StepRequest.endsAt] using (hends hr).2
  · rintro rfl
    refine ⟨List.forall_mem_append.2 ⟨fun m hm ha => ?_, by simp⟩, fun hr => ?_⟩
    · simpa [StepRequest.endsAt] using hlater m hm ha
    · simpa [StepRequest.endsAt] using (hends hr).2

/-- A step over the call comes to the line behind it, and so does a step out of the function. -/
theorem step_within_depth_calling : ∃ s t r later inside,
    (start calling).step calling 9 .over = some s ∧ s.status = .paused .step ∧
    Executes calling (start calling) s (later ++ [(start calling).machine]) ∧
    (∀ m ∈ later, calling.acts m = true → 1 < m.depth) ∧ s.machine.depth ≤ 1 ∧
    (start calling).run calling 9 (some 2) = some t ∧ t.machine.depth = 2 ∧
    t.step calling 9 .out = some r ∧ r.status = .paused .step ∧
    Executes calling t r (inside ++ [t.machine]) ∧
    (∀ m ∈ inside ++ [t.machine], calling.acts m = true → 2 ≤ m.depth) ∧ r.machine.depth < 2 := by
  let s := ((start calling).step calling 9 .over).get (by decide +kernel)
  let t := ((start calling).run calling 9 (some 2)).get (by decide +kernel)
  let r := (t.step calling 9 .out).get (by decide +kernel)
  have hs : (start calling).step calling 9 .over = some s := (Option.some_get _).symm
  have hr : t.step calling 9 .out = some r := (Option.some_get _).symm
  have hpaused : s.status = .paused .step := by decide +kernel
  have hpaused' : r.status = .paused .step := by decide +kernel
  have hdepth : t.machine.depth = 2 := by decide +kernel
  obtain ⟨later, hlater, -, hover, -⟩ := step_within_depth rfl rfl rfl hs
  obtain ⟨inside, hinside, -, -, hout⟩ := step_within_depth (by decide +kernel)
    (by decide +kernel) (by decide +kernel) hr
  obtain ⟨hdeeper, hs'⟩ := hover rfl
  obtain ⟨hdeep, hr'⟩ := hout rfl
  rw [hdepth] at hdeep hr'
  exact ⟨s, t, r, later, inside, hs, hpaused, hlater, hdeeper, hs' hpaused,
    (Option.some_get _).symm, hdepth, hr, hpaused', hinside, hdeep, hr' hpaused'⟩

end Session

end NumericScript
