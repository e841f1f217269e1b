import NumericScript.Proofs.Session.Passage

/-! # Breakpoints

A host that sets breakpoints at the beginning, and then only lets the session go on and answers
requests for input, sees exactly the pauses that can be read off the uninterrupted run: one before
every instruction in a line with a breakpoint, unless the instruction executed last in the same
frame was of that line too.

* `Image.lastLine`: the line last executed in a frame, told from what a run has passed.
* `Image.lines_of_passes`: it is the line that the frame has noted.
* `Image.breaks`: the pauses that can be read off a run.
* `Session.Watched`: what such a host sees, and `Session.watched_breaks`: that it sees those. -/

namespace NumericScript

/-! ### Lines of frames -/

namespace Machine

variable {image : Image} {m m' : Machine}

/-- The lines noted in the frames, the innermost first. -/
def lines (m : Machine) : List (Option Nat) := m.calls.map (·.line) ++ [m.main.line]

theorem length_lines (m : Machine) : m.lines.length = m.depth := by
  simp [lines, depth]

theorem head?_lines (m : Machine) : m.lines.head? = some m.frame.line := by
  unfold lines frame
  cases m.calls <;> rfl

theorem lines_modifyFrame (m : Machine) {f : Frame → Frame} (hf : ∀ x, (f x).line = x.line) :
    (m.modifyFrame f).lines = m.lines := by
  unfold modifyFrame lines
  split <;> simp [*]

theorem lines_noted (m : Machine) (line : Nat) :
    (m.noted line).lines = some line :: m.lines.tail := by
  unfold noted modifyFrame lines
  dsimp only
  split <;> simp [*]

theorem lines_write (m : Machine) (p : Place) (v : Value) : (m.write p v).lines = m.lines := by
  rcases p with t | ⟨slot, storage⟩
  · exact lines_modifyFrame m fun _ => rfl
  · cases storage with
    | global => rfl
    | «local» => exact lines_modifyFrame m fun _ => rfl

/-- An operation enters a frame in which no line is noted, leaves the innermost frame, or keeps the
frames with their lines. -/
theorem Goes.lines {op : Op} (h : Goes image m op m') :
    m'.lines = m.lines ∨ m'.lines = none :: m.lines ∨ m'.lines = m.lines.tail := by
  cases h with
  | write => exact .inl (lines_write _ _ _)
  | user => exact .inr (.inl rfl)
  | leave _ hc _ => exact .inr (.inr (by simp [Machine.lines, hc]))
  | _ => exact .inl rfl

end Machine

namespace Image

variable {image : Image} {p q : Point} {past : List Machine}

/-- The line of the instruction that was executed last in the innermost of `depth` frames, if there
is one, after the machines of `past`, the last first.  The frame was entered where there were fewer
frames. -/
def lastLine (image : Image) (depth : Nat) : List Machine → Option Nat
  | [] => none
  | m :: past =>
    if m.depth < depth then none
    else if m.depth = depth then ((image.action? m).map (·.line)).or (lastLine image depth past)
    else lastLine image depth past

/-- The lines that were executed last in each of `depth` frames, the innermost first. -/
def lastLines (image : Image) (past : List Machine) : Nat → List (Option Nat)
  | 0 => []
  | depth + 1 => image.lastLine (depth + 1) past :: lastLines image past depth

theorem length_lastLines (past : List Machine) (depth : Nat) :
    (image.lastLines past depth).length = depth := by
  induction depth with
  | zero => rfl
  | succ depth ih => simp [lastLines, ih]

/-- What is executed in a frame does not matter to the frames around it. -/
theorem lastLines_cons_of_lt {m : Machine} {depth : Nat} (h : depth < m.depth) :
    image.lastLines (m :: past) depth = image.lastLines past depth := by
  induction depth with
  | zero => rfl
  | succ depth ih =>
    have hlast : image.lastLine (depth + 1) (m :: past) = image.lastLine (depth + 1) past := by
      rw [lastLine, if_neg (by omega), if_neg (by omega)]
    rw [lastLines, lastLines, hlast, ih (by omega)]

/-- Where labels only have been passed since a call, nothing was executed in its frame. -/
theorem lastLine_of_entered {m : Machine} {labels : List Machine} {depth : Nat}
    (h : m.depth < depth) (hl : ∀ x ∈ labels, image.acts x = false) :
    image.lastLine depth (labels ++ m :: past) = none := by
  induction labels with
  | nil => exact if_pos h
  | cons x labels ih =>
    obtain ⟨hx, hl⟩ := List.forall_mem_cons.1 hl
    have hx : image.action? x = none := by simpa [acts] using hx
    rw [List.cons_append, lastLine, hx, ih hl]
    simp

/-- When a call has returned, the instruction executed last in the frame is the call. -/
theorem lastLine_of_returned {m : Machine} {i : Instr} {inside : List Machine}
    (hi : image.action? m = some i) (h : ∀ x ∈ inside, m.depth < x.depth) :
    image.lastLine m.depth (inside ++ m :: past) = some i.line := by
  induction inside with
  | nil => simp [lastLine, hi]
  | cons x inside ih =>
    obtain ⟨hx, h⟩ := List.forall_mem_cons.1 h
    rw [List.cons_append, lastLine, if_neg (by omega), if_neg (by omega), ih h]

/-- A step notes lines in the frames as they are executed there. -/
theorem lines_of_advance (hp : p.machine.lines = image.lastLines past p.machine.depth)
    (h : image.advance p = .next q) :
    q.machine.lines = image.lastLines (p.machine :: past) q.machine.depth := by
  have hdepth : p.machine.depth = p.machine.calls.length + 1 := rfl
  have houter := @lastLines_cons_of_lt image past p.machine p.machine.calls.length (by omega)
  rw [hdepth, lastLines] at hp
  obtain ⟨hlabel, rfl⟩ | ⟨i, hi, hgo⟩ := advance_cases h
  · -- A label notes nothing.
    change p.machine.lines = image.lastLines (p.machine :: past) p.machine.depth
    rw [hp, hdepth, lastLines, houter, lastLine, if_neg (by omega), if_pos hdepth, hlabel]
    rfl
  · have hnoted : (p.machine.noted i.line).lines =
        image.lastLines (p.machine :: past) (p.machine.calls.length + 1) := by
      rw [Machine.lines_noted, hp, lastLines, houter, lastLine, if_neg (by omega), if_pos hdepth,
        hi]
      rfl
    rw [← Machine.length_lines q.machine]
    obtain hgo | ⟨dest, ty, v, -, hq⟩ := hgo
    · obtain hq | hq | hq := hgo.lines
      · rw [hq, hnoted, length_lastLines]
      · have hentered : image.lastLine (p.machine.depth + 1) (p.machine :: past) = none :=
          if_pos (Nat.lt_succ_self _)
        rw [hq, hnoted, List.length_cons, length_lastLines, ← hdepth, lastLines, hentered]
      · rw [hq, hnoted, lastLines, List.tail_cons, length_lastLines]
    · have hq : q.machine.lines = (p.machine.noted i.line).lines := by
        rw [hq]
        exact Machine.lines_write _ _ _
      rw [hq, hnoted, length_lastLines]

/-- The lines that are noted in the frames are those that were executed last in them. -/
theorem lines_of_passes {lines : List String} (h : image.Passes (image.startPoint lines) past q) :
    q.machine.lines = image.lastLines past q.machine.depth := by
  induction h with
  | refl => rfl
  | tail _ hadv ih => exact lines_of_advance ih hadv

theorem line_frame_of_passes {lines : List String}
    (h : image.Passes (image.startPoint lines) past q) :
    q.machine.frame.line = image.lastLine q.machine.depth past := by
  have hhead := congrArg List.head? (lines_of_passes h)
  rw [Machine.head?_lines] at hhead
  exact Option.some.inj hhead

/-! ### Pauses read off a run -/

/-- Why a session with breakpoints at the lines of `B` pauses where a run is about to go on from `m`
after the machines of `past`: the instruction at hand is in such a line, and the instruction
executed last in the same frame, if there is one, is in another line. -/
def breakAt? (image : Image) (B : List Nat) (past : List Machine) (m : Machine) :
    Option PauseReason :=
  (image.action? m).bind fun i =>
    if i.line ∈ B ∧ image.lastLine m.depth past ≠ some i.line then some (.breakpoint i.line)
    else none

/-- The pauses on the way of a run, with their reasons, the last first. -/
def breaks (image : Image) (B : List Nat) : List Machine → List (Machine × PauseReason)
  | [] => []
  | m :: past =>
    ((image.breakAt? B past m).map fun reason => (m, reason)).toList ++ breaks image B past

end Image

/-! ### Hosts -/

namespace Session

variable {image : Image} {B : List Nat} {lines rest : List String} {past : List Machine}
  {pauses : List (Machine × PauseReason)} {s t r : Session}

/-- A session with breakpoints at some lines at its beginning. -/
def startAt (image : Image) (B : List Nat) : Session :=
  B.foldl (fun s line => s.addBreakpoint line) (start image)

/-- The pause in which a session is, if it is in one. -/
def pause (s : Session) : List (Machine × PauseReason) :=
  match s.status with
  | .paused reason => [(s.machine, reason)]
  | _ => []

/-- The sessions to which a host can come that sets breakpoints at the lines of `B`, and then lets
the session go on and answers requests for input with the given lines in turn; the lines left then;
and the pauses that it has seen, the last first. -/
inductive Watched (image : Image) (B : List Nat) (lines : List String) :
    Session → List String → List (Machine × PauseReason) → Prop where
  | start : Watched image B lines (startAt image B) lines []
  | resume {s s' : Session} {rest : List String} {pauses : List (Machine × PauseReason)}
      (fuel : Nat) (h : Watched image B lines s rest pauses)
      (hs : s.perform image fuel .resume = some s') :
      Watched image B lines s' rest (s'.pause ++ pauses)
  | answer {s s' : Session} {line : String} {rest : List String}
      {pauses : List (Machine × PauseReason)} (fuel : Nat)
      (h : Watched image B lines s (line :: rest) pauses) (ha : s.status.isAwaiting = true)
      (hs : s.perform image fuel (.provideInput line) = some s') :
      Watched image B lines s' rest (s'.pause ++ pauses)
  /-- What is given when nothing was asked for is ignored. -/
  | ignored {s s' : Session} {line : String} {rest : List String}
      {pauses : List (Machine × PauseReason)} (fuel : Nat)
      (h : Watched image B lines s rest pauses) (ha : s.status.isAwaiting = false)
      (hs : s.perform image fuel (.provideInput line) = some s') :
      Watched image B lines s' rest pauses

/-- All that is wanted of a session are breakpoints at the lines of `B`. -/
structure Heeds (B : List Nat) (s : Session) : Prop where
  stepping : s.stepping = none
  pauseRequested : s.pauseRequested = false
  breakpoints : ∀ n, n ∈ s.breakpoints ↔ n ∈ B

theorem startAt_eq (image : Image) (B : List Nat) : startAt image B =
    { start image with breakpoints := B.foldl (fun ns n => insertLine n ns) [] } := by
  have hfold : ∀ (B : List Nat) (s : Session), B.foldl (fun s line => s.addBreakpoint line) s =
      { s with breakpoints := B.foldl (fun ns n => insertLine n ns) s.breakpoints } := by
    intro B
    induction B with
    | nil => exact fun s => rfl
    | cons n B ih => exact fun s => ih (s.addBreakpoint n)
  exact hfold B (start image)

theorem mem_foldl_insertLine {n : Nat} (B ns : List Nat) :
    n ∈ B.foldl (fun ns n => insertLine n ns) ns ↔ n ∈ B ∨ n ∈ ns := by
  induction B generalizing ns with
  | nil => simp
  | cons k B ih => simp [ih, mem_insertLine, or_assoc, or_left_comm]

theorem heeds_startAt (image : Image) (B : List Nat) : Heeds B (startAt image B) := by
  rw [startAt_eq]
  exact ⟨rfl, rfl, fun n => by simp [mem_foldl_insertLine]⟩

/-- Nothing else matters. -/
theorem Heeds.of_eq (h : Heeds B s) (hstep : t.stepping = s.stepping)
    (hpause : t.pauseRequested = s.pauseRequested) (hbreak : t.breakpoints = s.breakpoints) :
    Heeds B t :=
  ⟨hstep.trans h.stepping, hpause.trans h.pauseRequested, by rw [hbreak]; exact h.breakpoints⟩

/-- A session of which nothing else is wanted pauses as can be read off the run. -/
theorem Heeds.pauseNow?_eq (h : Heeds B t)
    (hp : image.Passes (image.startPoint lines) past ⟨t.machine, rest⟩) : t.pauseNow? image =
      if t.resumeAt = some t.machine.pc then none else image.breakAt? B past t.machine := by
  have hreason : ∀ i : Instr, t.pauseReason? i.line =
      if i.line ∈ B ∧ image.lastLine t.machine.depth past ≠ some i.line
      then some (.breakpoint i.line) else none := by
    intro i
    unfold pauseReason?
    rw [h.pauseRequested, h.stepping, Image.line_frame_of_passes hp]
    simp only [Bool.false_eq_true, if_false, h.breakpoints, and_comm]
  rw [Session.pauseNow?_eq]
  simp only [hreason]
  rfl

/-! ### What a host sees -/

/-- A running session has come along the machines of `past`, and its host has seen the pauses on the
way, that at the machine of the session among them if the session has just paused there. -/
structure Comes (image : Image) (B : List Nat) (lines : List String) (past : List Machine)
    (t : Session) (rest : List String) (pauses : List (Machine × PauseReason)) : Prop where
  heeds : Heeds B t
  passes : image.Passes (image.startPoint lines) past ⟨t.machine, rest⟩
  pauses : pauses = if t.resumeAt = some t.machine.pc
    then image.breaks B (t.machine :: past) else image.breaks B past

/-- A session at rest has come to the machine of `q`, and its host has seen all pauses so far. -/
structure Visits (image : Image) (B : List Nat) (lines : List String) (past : List Machine)
    (q : Point) (s : Session) (rest : List String) (pauses : List (Machine × PauseReason)) :
    Prop where
  heeds : Heeds B s
  passes : image.Passes (image.startPoint lines) past q
  stands : StandsAt image q.machine s
  pauses : pauses = image.breaks B (q.machine :: past)
  paused : s.status.canRun = true → ∃ reason, s.status = .paused reason ∧
    image.breakAt? B past q.machine = some reason ∧ s.resumeAt = some s.machine.pc
  awaiting : s.status.isAwaiting = true → s.resumeAt = none
  unread : s.status.isHalted = false → q.unread = rest

/-- A session that is not paused adds nothing to what its host has seen. -/
theorem pause_of_canRun_eq_false (h : s.status.canRun = false) : s.pause = [] := by
  unfold pause
  split
  · rename_i hs
    rw [hs] at h
    cases h
  · rfl

/-- A fault ends a session where it stands. -/
theorem Visits.of_fault {q : Point} {f : Fault} (hheeds : Heeds B s)
    (hp : image.Passes (image.startPoint lines) past q)
    (hstands : StandsAt image q.machine (s.fault image f))
    (hpauses : pauses = image.breaks B (q.machine :: past)) :
    Visits image B lines past q (s.fault image f) rest ((s.fault image f).pause ++ pauses) := by
  have hover : (s.fault image f).status.isHalted = true := status_fault _ _
  have hcan : (s.fault image f).status.canRun = false := Status.canRun_of_isHalted hover
  refine ⟨?_, hp, hstands, ?_, fun h => ?_, fun h => ?_, fun h => ?_⟩
  · refine hheeds.of_eq ?_ ?_ ?_ <;> unfold Session.fault <;> split <;> rfl
  · rw [pause_of_canRun_eq_false hcan]
    exact hpauses
  · rw [hcan] at h
    cases h
  · rw [Status.isAwaiting_of_isHalted hover] at h
    cases h
  · rw [hover] at h
    cases h

theorem Comes.pauses_eq (h : Comes image B lines past t rest pauses)
    (hp : t.pauseNow? image = none) : pauses = image.breaks B (t.machine :: past) := by
  rw [h.heeds.pauseNow?_eq h.passes] at hp
  rw [h.pauses]
  split
  · rfl
  · rw [if_neg (by assumption)] at hp
    rw [Image.breaks, hp]
    rfl

theorem Comes.goesOn {later : List Machine} (h : Comes image B lines past s rest pauses)
    (ht : GoesOn image s later t) : Comes image B lines (later ++ past) t rest pauses := by
  induction ht with
  | refl => exact h
  | tail _ hp hstep ih =>
    exact ⟨ih.heeds.of_eq rfl rfl rfl, ih.passes.tail (by simp [Image.advance, hstep]),
      ih.pauses_eq hp⟩

/-- The last turn of a session shows its host the next pause, or none. -/
theorem Comes.turn (h : Comes image B lines past t rest pauses) (hs : t.status = .running)
    (hr : (t.turn image).status ≠ .running) :
    Visits image B lines past ⟨t.machine, rest⟩ (t.turn image) rest
      ((t.turn image).pause ++ pauses) := by
  obtain ⟨reason, hp, hturn⟩ | ⟨hp, hturn, hstep⟩ := turn_cases hs hr
  · rw [hturn]
    have hpauses := h.pauses
    rw [h.heeds.pauseNow?_eq h.passes] at hp
    split at hp
    · cases hp
    · rw [if_neg (by assumption)] at hpauses
      refine ⟨⟨rfl, rfl, h.heeds.breakpoints⟩, h.passes, (standsAt_of_canRun rfl).2 rfl, ?_,
        fun _ => ⟨reason, rfl, hp, rfl⟩, nofun, fun _ => rfl⟩
      rw [hpauses, Image.breaks, hp]
      rfl
  · rw [hturn]
    have hstands := standsAt_record hstep
    have hpauses := h.pauses_eq hp
    cases ho : t.machine.step image with
    | running m => exact absurd ho (hstep m)
    | finished m =>
      rw [ho] at hstands
      exact ⟨h.heeds.of_eq rfl rfl rfl, h.passes, hstands, hpauses, nofun, nofun, nofun⟩
    | awaiting m dest ty =>
      rw [ho] at hstands
      exact ⟨h.heeds.of_eq rfl rfl rfl, h.passes, hstands, hpauses, nofun, fun _ => rfl,
        fun _ => rfl⟩
    | faulted m f =>
      rw [ho] at hstands
      exact .of_fault (h.heeds.of_eq rfl rfl rfl) h.passes hstands hpauses

theorem Comes.drive {fuel : Nat} (h : Comes image B lines past s rest pauses)
    (hs : s.status = .running) (hr : drive image fuel none s = some r) :
    ∃ past q, Visits image B lines past q r rest (r.pause ++ pauses) := by
  obtain ⟨later, t, ht, ⟨rfl, hrest⟩ | ⟨hbudget, -⟩⟩ := exists_goesOn_of_drive hr hs
  · exact ⟨_, _, (h.goesOn ht).turn (by rw [ht.eq]; exact hs) hrest⟩
  · exact absurd rfl hbudget

/-- A session that pauses at a machine, or nowhere yet, comes to a machine where its host has seen
all pauses again. -/
theorem Visits.resume {q : Point} {fuel : Nat} (h : Visits image B lines past q s rest pauses)
    (hr : s.run image fuel none = some r) :
    ∃ past q, Visits image B lines past q r rest (r.pause ++ pauses) := by
  rw [Session.run] at hr
  split at hr
  · rename_i hcan
    obtain ⟨reason, hs, -, hresume⟩ := h.paused hcan
    have hm : s.machine = q.machine := (standsAt_of_canRun hcan).1 h.stands
    have hunread : q.unread = rest := h.unread (Status.isHalted_of_canRun hcan)
    have hcomes : Comes image B lines past { s with status := .running } rest pauses := by
      refine ⟨h.heeds.of_eq rfl rfl rfl, ?_, ?_⟩ <;> dsimp only
      · rw [hm, ← hunread]
        exact h.passes
      · rw [if_pos hresume, h.pauses, ← hm]
    exact hcomes.drive rfl hr
  · rename_i hcan
    cases hr
    rw [pause_of_canRun_eq_false (Bool.eq_false_iff.2 hcan)]
    exact ⟨past, q, h⟩

theorem Visits.answer {q : Point} {fuel : Nat} {line : String}
    (h : Visits image B lines past q s (line :: rest) pauses) (ha : s.status.isAwaiting = true)
    (hr : s.provideInput image fuel line = some r) :
    ∃ past q, Visits image B lines past q r rest (r.pause ++ pauses) := by
  obtain ⟨dest, ty, hs⟩ : ∃ dest ty, s.status = .awaitingInput dest ty := by
    cases hs : s.status <;> rw [hs] at ha <;> first | exact ⟨_, _, rfl⟩ | cases ha
  have hstep : q.machine.step image = .awaiting s.machine dest ty := by
    have hstands := h.stands
    unfold StandsAt at hstands
    rwa [hs] at hstands
  have hunread : q.unread = line :: rest := h.unread (by rw [hs]; rfl)
  rw [Session.provideInput, hs] at hr
  dsimp only at hr
  split at hr
  · rename_i v hv
    have hcomes : Comes image B lines (q.machine :: past)
        { s with machine := (s.machine.write dest v).next, status := .running } rest pauses := by
      refine ⟨h.heeds.of_eq rfl rfl rfl, h.passes.tail ?_, ?_⟩
      · simp [Image.advance, hstep, hunread, hv]
      · simp [h.awaiting ha, h.pauses]
    exact hcomes.drive rfl hr
  · cases hr
    exact ⟨past, q, .of_fault h.heeds h.passes (h.stands.halt (machine_fault _ _)
      (status_fault _ _)) h.pauses⟩

/-- A host that sets breakpoints at the beginning has seen, wherever it has come to, all pauses on
the way of the run. -/
theorem Watched.visits (h : Watched image B lines s rest pauses) :
    (s = startAt image B ∧ rest = lines ∧ pauses = []) ∨
      ∃ past q, Visits image B lines past q s rest pauses := by
  -- Before the first command the session is ready, and a breakpoint at the first instruction has
  -- not been seen although it is on the way.
  induction h with
  | start => exact .inl ⟨rfl, rfl, rfl⟩
  | @resume s s' rest pauses fuel _ hs ih =>
    refine .inr ?_
    obtain ⟨rfl, rfl, rfl⟩ | ⟨past, q, hq⟩ := ih
    · have hcomes : Comes image B rest [] { startAt image B with status := .running } rest [] := by
        refine ⟨(heeds_startAt image B).of_eq rfl rfl rfl, ?_, ?_⟩ <;> rw [startAt_eq]
        · exact .refl
        · rfl
      have hdrive : Session.drive image fuel none { startAt image B with status := .running } =
          some s' := by
        rw [← hs, startAt_eq]
        rfl
      exact hcomes.drive rfl hdrive
    · exact hq.resume hs
  | answer _ _ ha hs ih =>
    obtain ⟨rfl, -, -⟩ | ⟨past, q, hq⟩ := ih
    · rw [startAt_eq] at ha
      cases ha
    · exact .inr (hq.answer ha hs)
  | @ignored s s' line rest pauses fuel _ ha hs ih =>
    have hsame : s.provideInput image fuel line = some s := by
      unfold Session.provideInput
      split
      · rename_i hst
        rw [hst] at ha
        cases ha
      · rfl
    obtain rfl : s = s' := Option.some.inj (hsame.symm.trans hs)
    exact ih

/-! ### Every pause is seen -/

/-- A running session has come along the machines of `past`, and its host sees where it comes to
rest. -/
structure Attends (image : Image) (B : List Nat) (lines : List String) (past : List Machine)
    (t : Session) (rest : List String) (pauses : List (Machine × PauseReason)) : Prop where
  comes : Comes image B lines past t rest pauses
  running : t.status = .running
  watched : ∀ fuel r, drive image fuel none t = some r →
    Watched image B lines r rest (r.pause ++ pauses)

theorem Attends.pause {reason : PauseReason} (h : Attends image B lines past t rest pauses)
    (hp : t.pauseNow? image = some reason) :
    Watched image B lines (t.pauseFor reason) rest ((t.machine, reason) :: pauses) := by
  refine h.watched 1 _ ?_
  simp [Session.drive, turn, hp, pauseFor]

/-- A session that has paused goes on without a pause where it is. -/
theorem Attends.unpaused (h : Attends image B lines past t rest pauses) :
    ∃ t', t'.machine = t.machine ∧ t'.pauseNow? image = none ∧
      Attends image B lines past t' rest (image.breaks B (t.machine :: past)) := by
  cases hp : t.pauseNow? image with
  | none => exact ⟨t, rfl, hp, h.comes.pauses_eq hp ▸ h⟩
  | some reason =>
    have hpauses : (t.machine, reason) :: pauses = image.breaks B (t.machine :: past) := by
      have hpauses := h.comes.pauses
      rw [h.comes.heeds.pauseNow?_eq h.comes.passes] at hp
      split at hp
      · cases hp
      · rw [hpauses, if_neg (by assumption), Image.breaks, hp]
        rfl
    have hwatched := h.pause hp
    rw [hpauses] at hwatched
    refine ⟨{ t.pauseFor reason with status := .running }, rfl, ?_,
      ⟨⟨rfl, rfl, h.comes.heeds.breakpoints⟩, h.comes.passes, (if_pos rfl).symm⟩, rfl,
      fun fuel r hr => hwatched.resume fuel hr⟩
    exact (Session.pauseNow?_eq _).trans (if_pos rfl)

theorem Attends.advance {q : Point} (h : Attends image B lines past t rest pauses)
    (hp : t.pauseNow? image = none) (hadv : image.advance ⟨t.machine, rest⟩ = .next q) :
    ∃ t', t'.machine = q.machine ∧ t'.resumeAt = none ∧
      Attends image B lines (t.machine :: past) t' q.unread pauses := by
  have hpauses := h.comes.pauses_eq hp
  have hpasses := h.comes.passes.tail hadv
  obtain ⟨m, hstep, rfl⟩ | ⟨m, dest, ty, line, rest, v, hstep, rfl, hv, rfl⟩ :=
    Image.advance_eq_next_iff.1 hadv
  · refine ⟨{ t with machine := m, resumeAt := none }, rfl, rfl,
      ⟨h.comes.heeds.of_eq rfl rfl rfl, hpasses, hpauses⟩, h.running, fun fuel r hr => ?_⟩
    refine h.watched (fuel + 1) r ?_
    simpa [Session.drive, turn, hp, hstep, record, h.running] using hr
  · have hasks : Watched image B lines
        { t with machine := m, resumeAt := none, status := .awaitingInput dest ty }
        (line :: rest) pauses := by
      refine h.watched 1 _ ?_
      simp [Session.drive, turn, hp, hstep, record]
    refine ⟨{ t with machine := (m.write dest v).next, resumeAt := none }, rfl, rfl,
      ⟨h.comes.heeds.of_eq rfl rfl rfl, hpasses, hpauses⟩, h.running, fun fuel r hr => ?_⟩
    refine hasks.answer fuel rfl ?_
    simpa [Session.perform, Session.provideInput, hv, Session.run, Status.canRun,
      h.running] using hr

/-- A host comes wherever the run comes. -/
theorem exists_attends {q : Point} (h : image.Passes (image.startPoint lines) past q) :
    ∃ t, t.machine = q.machine ∧ t.resumeAt = none ∧
      Attends image B lines past t q.unread (image.breaks B past) := by
  -- Along the run: where the session has to pause it does and is let go on, and then takes the
  -- step.
  induction h with
  | refl =>
    refine ⟨{ startAt image B with status := .running }, by rw [startAt_eq]; rfl,
      by rw [startAt_eq]; rfl, ⟨(heeds_startAt image B).of_eq rfl rfl rfl, ?_, ?_⟩, rfl,
      fun fuel r hr => ?_⟩
    · rw [startAt_eq]
      exact .refl
    · rw [startAt_eq]
      rfl
    · refine Watched.start.resume fuel ?_
      rw [← hr, startAt_eq]
      rfl
  | @tail past q r _ hadv ih =>
    obtain ⟨t, hm, -, ht⟩ := ih
    obtain ⟨t', hm', hp, ht'⟩ := ht.unpaused
    rw [hm] at hm' ht'
    have hadv : image.advance ⟨t'.machine, q.unread⟩ = .next r := by
      rw [hm']
      exact hadv
    obtain ⟨u, hu, hresume, hattends⟩ := ht'.advance hp hadv
    rw [hm'] at hattends
    exact ⟨u, hu, hresume, hattends⟩

/-- Breakpoints are neither missed nor repeated.  A host that sets them at the beginning, and then
only lets the session go on and answers requests for input, has seen wherever it comes to exactly
the pauses that can be read off the run up to there, each once and in their order; and it can come
to every pause that can be read off the run.  After a call has returned, there is no pause in the
line of the call; and in a frame that was just entered there is one, whatever was executed in other
frames. -/
theorem watched_breaks (image : Image) (B : List Nat) (lines : List String) :
    (∀ s rest pauses, Watched image B lines s rest pauses →
      (s = startAt image B ∧ pauses = []) ∨
        ∃ past q, image.Passes (image.startPoint lines) past q ∧ StandsAt image q.machine s ∧
          pauses = image.breaks B (q.machine :: past) ∧
          ∀ reason, s.status = .paused reason → image.breakAt? B past q.machine = some reason) ∧
    (∀ past q reason, image.Passes (image.startPoint lines) past q →
      image.breakAt? B past q.machine = some reason → ∃ s,
        Watched image B lines s q.unread (image.breaks B (q.machine :: past)) ∧
          s.status = .paused reason ∧ s.machine = q.machine) ∧
    (∀ past inside m i m', image.action? m = some i → (∀ x ∈ inside, m.depth < x.depth) →
      m'.depth = m.depth →
        image.breakAt? B (inside ++ m :: past) m' ≠ some (.breakpoint i.line)) ∧
    (∀ past labels m i m', (∀ x ∈ labels, image.acts x = false) → m.depth < m'.depth →
      image.action? m' = some i → i.line ∈ B →
        image.breakAt? B (labels ++ m :: past) m' = some (.breakpoint i.line)) := by
  refine ⟨fun s rest pauses h => ?_, fun past q reason hp hreason => ?_,
    fun past inside m i m' hi hinside hdepth hbreak => ?_,
    fun past labels m i m' hlabels hdepth hi hB => ?_⟩
  · obtain ⟨hs, -, hpauses⟩ | ⟨past, q, hq⟩ := h.visits
    · exact .inl ⟨hs, hpauses⟩
    · refine .inr ⟨past, q, hq.passes, hq.stands, hq.pauses, fun reason hs => ?_⟩
      obtain ⟨reason', hs', hbreak, -⟩ := hq.paused (by rw [hs]; rfl)
      rw [hs] at hs'
      cases hs'
      exact hbreak
  · obtain ⟨t, hm, hresume, ht⟩ := @exists_attends image B lines past q hp
    have hp : t.pauseNow? image = some reason := by
      rw [ht.comes.heeds.pauseNow?_eq ht.comes.passes, hm, hreason, hresume]
      exact if_neg nofun
    refine ⟨t.pauseFor reason, ?_, rfl, hm⟩
    have hwatched := ht.pause hp
    rwa [hm, show (q.machine, reason) :: image.breaks B past = image.breaks B (q.machine :: past) by
      rw [Image.breaks, hreason]; rfl] at hwatched
  · have hlast := @Image.lastLine_of_returned image past m i inside hi hinside
    unfold Image.breakAt? at hbreak
    rw [hdepth, hlast] at hbreak
    obtain ⟨j, -, hj⟩ := Option.bind_eq_some_iff.1 hbreak
    split at hj
    · rename_i hne
      obtain hline : j.line = i.line := by simpa using hj
      exact hne.2 (by rw [hline])
    · cases hj
  · unfold Image.breakAt?
    rw [hi, Image.lastLine_of_entered hdepth hlabels]
    exact if_pos ⟨hB, nofun⟩

/-- Code that calls a function in line 4, which calls itself once in line 2, where there is a label
behind the call. -/
def nested : Image where
  instrs := #[⟨.param (.const (.bool true)), 4⟩, ⟨.call (.user "f") 1, 4⟩,
    ⟨.print (.const (.str "over")) true, 4⟩, ⟨.halt, 4⟩, ⟨.label (.function "f"), 1⟩,
    ⟨.jumpIfFalse (.place (.var ⟨"again", .local⟩)) (.local 0), 2⟩,
    ⟨.param (.const (.bool false)), 2⟩, ⟨.call (.user "f") 1, 2⟩, ⟨.label (.local 0), 2⟩,
    ⟨.return none, 3⟩]
  functions := [("f", ⟨"f", .function "f", [⟨"again", .local⟩], false, 1⟩)]
  labels := [(.function "f", 4), (.local 0, 8)]
  settings := {}

/-- Where it stands in the function when that was called from line 4. -/
def nestedIn (pc : Nat) : Machine :=
  { nested.start with
    pc := pc
    calls := [Machine.callFrame ⟨"f", .function "f", [⟨"again", .local⟩], false, 1⟩
      [.bool true] 2] }

/-- With breakpoints in both lines the host sees one pause in line 4 and one in each of the two
calls of the function, the last first. -/
theorem watched_breaks_nested :
    Image.ofCode ⟨nested.instrs.toList, nested.functions.map (·.2)⟩ {} = .ok nested ∧
    ∃ s t pauses, Watched nested [2, 4] [] s [] pauses ∧ s.status = .halted .finished ∧
      pauses.map (fun p => (p.1.pc, p.2)) =
        [(5, .breakpoint 2), (5, .breakpoint 2), (0, .breakpoint 4)] ∧
      (∃ past q, nested.Passes (nested.startPoint []) past q ∧
        pauses = nested.breaks [2, 4] (q.machine :: past)) ∧
      t.status = .paused (.breakpoint 2) ∧ (∃ past, ∃ q : Point, StandsAt nested q.machine t ∧
        ∃ u, Watched nested [2, 4] [] u q.unread (nested.breaks [2, 4] (q.machine :: past)) ∧
          u.status = .paused (.breakpoint 2) ∧ u.machine = t.machine) ∧
      nested.breakAt? [2, 4] [nestedIn 9, { nested.start with pc := 1 }]
        { nested.start with pc := 2 } ≠ some (.breakpoint 4) ∧
      nested.breakAt? [2, 4] [nestedIn 4, { nested.start with pc := 1 }] (nestedIn 5) =
        some (.breakpoint 2) := by
  let s₁ := ((startAt nested [2, 4]).perform nested 9 .resume).get (by decide +kernel)
  let s₂ := (s₁.perform nested 9 .resume).get (by decide +kernel)
  let s₃ := (s₂.perform nested 9 .resume).get (by decide +kernel)
  let s₄ := (s₃.perform nested 9 .resume).get (by decide +kernel)
  have h₂ : Watched nested [2, 4] [] s₂ [] (s₂.pause ++ (s₁.pause ++ [])) :=
    (Watched.start.resume 9 (Option.some_get _).symm).resume 9 (Option.some_get _).symm
  have h₄ : Watched nested [2, 4] [] s₄ []
      (s₄.pause ++ (s₃.pause ++ (s₂.pause ++ (s₁.pause ++ [])))) :=
    (h₂.resume 9 (Option.some_get _).symm).resume 9 (Option.some_get _).symm
  have hpaused : s₂.status = .paused (.breakpoint 2) := by decide +kernel
  have hover : s₄.status = .halted .finished := by decide +kernel
  have hpauses : (s₄.pause ++ (s₃.pause ++ (s₂.pause ++ (s₁.pause ++ [])))).map
      (fun p : Machine × PauseReason => (p.1.pc, p.2)) =
        [(5, .breakpoint 2), (5, .breakpoint 2), (0, .breakpoint 4)] := by
    decide +kernel
  clear_value s₁ s₂ s₃ s₄
  obtain ⟨hseen, hshown, hreturned, hentered⟩ := watched_breaks nested [2, 4] []
  refine ⟨rfl, s₄, s₂, _, h₄, hover, hpauses, ?_, hpaused, ?_, ?_, ?_⟩
  · obtain ⟨-, hnone⟩ | ⟨past, q, hp, -, hbreaks, -⟩ := hseen _ _ _ h₄
    · rw [hnone] at hpauses
      cases hpauses
    · exact ⟨past, q, hp, hbreaks⟩
  · obtain ⟨hs, -⟩ | ⟨past, q, hp, hstands, -, hbreak⟩ := hseen _ _ _ h₂
    · rw [hs] at hpaused
      cases hpaused
    · obtain ⟨u, hu, hstatus, hm⟩ := hshown past q _ hp (hbreak _ hpaused)
      have hm₂ := (standsAt_of_canRun (by rw [hpaused]; rfl)).1 hstands
      exact ⟨past, q, hstands, u, hu, hstatus, hm.trans hm₂.symm⟩
  · exact hreturned [] [nestedIn 9] { nested.start with pc := 1 } ⟨.call (.user "f") 1, 4⟩ _ rfl
      (by decide +kernel) rfl
  · exact hentered [] [nestedIn 4] { nested.start with pc := 1 }
      ⟨.jumpIfFalse (.place (.var ⟨"again", .local⟩)) (.local 0), 2⟩ _ (by decide +kernel)
      (by decide +kernel) rfl (by decide +kernel)

end Session

end NumericScript
