import NumericScript.Proofs.Session.Passage

/-! # Frames around a call

Whatever a machine executes, it changes the innermost frame, enters a new one or leaves the
innermost one.  So the frames around a call stay as they were when it was entered until it returns,
and then the machine goes on behind the call.

* `Machine.Within`: being inside a call with given frames around it.
* `Image.within_of_passes`: a run stays inside until it goes back to where the call came from.
* `Image.frames_of_returned`: what a call leaves as it was.
* `Session.calls_isolated`: the same for sessions, whatever their hosts do. -/

namespace NumericScript

namespace Machine

variable {image : Image} {m m' : Machine}

/-- All frames, the innermost first. -/
def frames (m : Machine) : List Frame := m.calls ++ [m.main]

theorem length_frames (m : Machine) : m.frames.length = m.depth := by
  simp [frames, depth]

theorem frames_eq_cons (m : Machine) : m.frames = m.frame :: m.frames.tail := by
  unfold frames frame
  cases m.calls <;> rfl

theorem frames_modifyFrame (m : Machine) (f : Frame → Frame) :
    (m.modifyFrame f).frames = f m.frame :: m.frames.tail := by
  unfold modifyFrame frames frame
  split <;> simp [*]

theorem frames_noted (m : Machine) (line : Nat) :
    (m.noted line).frames = { m.frame with line := some line } :: m.frames.tail :=
  frames_modifyFrame { m with executed := m.executed + 1 } _

/-- A value is written to a global variable or into the innermost frame. -/
theorem frames_write (m : Machine) (p : Place) (v : Value) :
    ∃ f : Frame, f.returnAddress = m.frame.returnAddress ∧
      (m.write p v).frames = f :: m.frames.tail := by
  rcases p with t | ⟨slot, storage⟩
  · exact ⟨_, by rfl, frames_modifyFrame m _⟩
  · cases storage with
    | global => exact ⟨m.frame, rfl, frames_eq_cons m⟩
    | «local» => exact ⟨_, by rfl, frames_modifyFrame m _⟩

@[simp] theorem depth_write (m : Machine) (p : Place) (v : Value) :
    (m.write p v).depth = m.depth := by
  rcases p with t | ⟨slot, storage⟩
  · simp [write]
  · cases storage
    · rfl
    · simp [write]

@[simp] theorem depth_noted (m : Machine) (line : Nat) : (m.noted line).depth = m.depth :=
  depth_modifyFrame _ _

theorem depth_written (m : Machine) (line : Nat) (p : Place) (v : Value) :
    ((m.noted line).write p v).next.depth = m.depth :=
  (depth_write _ _ _).trans (depth_noted _ _)

theorem pc_written (m : Machine) (line : Nat) (p : Place) (v : Value) :
    ((m.noted line).write p v).next.pc = m.pc + 1 := by
  simp [next]

/-- The machine is inside a call that goes back to `k`, with the frames of `outer` around it. -/
def Within (outer : List Frame) (k : Nat) (m : Machine) : Prop :=
  ∃ inner f, m.frames = inner ++ f :: outer ∧ f.returnAddress = k

theorem Within.lt_depth {outer : List Frame} {k : Nat} (h : m.Within outer k) :
    outer.length < m.depth := by
  obtain ⟨inner, f, hm, -⟩ := h
  rw [← length_frames, hm, List.length_append, List.length_cons]
  omega

/-- What happens in the innermost frame does not lead out of a call. -/
theorem Within.of_tail {outer : List Frame} {k : Nat} {f : Frame} (h : m.Within outer k)
    (hf : f.returnAddress = m.frame.returnAddress) (hm : m'.frames = f :: m.frames.tail) :
    m'.Within outer k := by
  obtain ⟨inner, g, hframes, hg⟩ := h
  rw [frames_eq_cons] at hframes
  cases inner with
  | nil =>
    obtain ⟨hframe, htail⟩ := List.cons.inj hframes
    exact ⟨[], f, by rw [hm, htail]; rfl, by rw [hf, hframe, hg]⟩
  | cons i inner =>
    obtain ⟨-, htail⟩ := List.cons.inj hframes
    exact ⟨f :: inner, g, by rw [hm, htail]; rfl, hg⟩

theorem Within.noted {outer : List Frame} {k : Nat} (h : m.Within outer k) (line : Nat) :
    (m.noted line).Within outer k :=
  h.of_tail (by rfl) (frames_noted m line)

theorem Within.write {outer : List Frame} {k : Nat} (h : m.Within outer k) (p : Place)
    (v : Value) : (m.write p v).Within outer k := by
  obtain ⟨f, hf, hframes⟩ := frames_write m p v
  exact h.of_tail hf hframes

/-- An operation leads out of a call to where it goes back, or stays inside. -/
theorem Within.goes {outer : List Frame} {k : Nat} {op : Op} (h : m.Within outer k)
    (hgo : Goes image m op m') : m'.Within outer k ∨ (m'.frames = outer ∧ m'.pc = k) := by
  cases hgo with
  | write => exact .inl (h.write _ _)
  | user =>
    obtain ⟨inner, f, hm, hf⟩ := h
    exact .inl ⟨_ :: inner, f, congrArg (List.cons _) hm, hf⟩
  | @leave _ _ g gs _ hc _ =>
    obtain ⟨inner, f, hm, hf⟩ := h
    rw [frames, hc] at hm
    cases inner with
    | nil =>
      obtain ⟨rfl, htail⟩ := List.cons.inj hm
      exact .inr ⟨htail, hf⟩
    | cons i inner =>
      obtain ⟨-, htail⟩ := List.cons.inj hm
      exact .inl ⟨inner, f, htail, hf⟩
  | _ => exact .inl h

/-- Before the innermost frame was changed, the machine was in the same calls. -/
theorem Within.of_changed {outer : List Frame} {k : Nat} {f : Frame} (h : m'.Within outer k)
    (hf : f.returnAddress = m.frame.returnAddress) (hm : m'.frames = f :: m.frames.tail) :
    m.Within outer k := by
  have hcons := (frames_eq_cons m').symm.trans hm
  obtain ⟨hframe, htail⟩ := List.cons.inj hcons
  refine h.of_tail (f := m.frame) (by rw [hframe, hf]) ?_
  rw [htail]
  exact frames_eq_cons m

theorem Within.of_noted {outer : List Frame} {k line : Nat} (h : (m.noted line).Within outer k) :
    m.Within outer k :=
  h.of_changed (by rfl) (frames_noted m line)

theorem Within.of_write {outer : List Frame} {k : Nat} {p : Place} {v : Value}
    (h : (m.write p v).Within outer k) : m.Within outer k := by
  obtain ⟨f, hf, hframes⟩ := frames_write m p v
  exact h.of_changed hf hframes

/-- A machine in a call was in that call before an operation, or the operation has made the call. -/
theorem Goes.within_of_within {outer : List Frame} {k : Nat} (h : Goes image m op m')
    (hin : m'.Within outer k) : m.Within outer k ∨ m.frames = outer ∧ k = m.pc + 1 := by
  cases h with
  | write => exact .inl (Within.of_write hin)
  | user =>
    obtain ⟨inner, f, hframes, hf⟩ := hin
    cases inner with
    | nil =>
      obtain ⟨rfl, htail⟩ := List.cons.inj hframes
      exact .inr ⟨htail, hf.symm⟩
    | cons i inner => exact .inl ⟨inner, f, (List.cons.inj hframes).2, hf⟩
  | @leave _ _ g gs _ hc _ =>
    obtain ⟨inner, f, hframes, hf⟩ := hin
    exact .inl ⟨g :: inner, f, by rw [frames, hc]; exact congrArg (g :: ·) hframes, hf⟩
  | _ => exact .inl hin

end Machine

/-- Where a run goes on, if it does. -/
def Advance.point? : Advance → Option Point
  | .next q => some q
  | .done _ => none

theorem Advance.point?_eq_some {a : Advance} {q : Point} : a.point? = some q ↔ a = .next q := by
  cases a <;> simp [point?]

namespace Image

variable {image : Image} {p q r : Point} {k : Nat}

theorem within_of_advance {outer : List Frame} (hp : p.machine.Within outer k)
    (h : image.advance p = .next q) :
    q.machine.Within outer k ∨ (q.machine.frames = outer ∧ q.machine.pc = k) := by
  obtain ⟨-, rfl⟩ | ⟨i, -, hgo | ⟨dest, ty, v, -, hq⟩⟩ := advance_cases h
  · exact .inl hp
  · exact (hp.noted i.line).goes hgo
  · rw [hq]
    exact .inl ((hp.noted i.line).write dest v)

/-- As long as there are more frames than around a call, a run is inside that call; and when there
are no more than that, it has just gone back. -/
theorem within_of_passes {outer : List Frame} {during : List Machine}
    (hq : q.machine.Within outer k) (h : image.Passes q during r)
    (hin : ∀ m ∈ during, outer.length < m.depth) :
    r.machine.Within outer k ∨ (r.machine.frames = outer ∧ r.machine.pc = k) := by
  induction h with
  | refl => exact .inl hq
  | @tail during x r _ hadv ih =>
    obtain ⟨hx, hin⟩ := List.forall_mem_cons.1 hin
    obtain hwithin | ⟨hback, -⟩ := ih hin
    · exact within_of_advance hwithin hadv
    · rw [← Machine.length_frames, hback] at hx
      exact absurd hx (Nat.lt_irrefl _)

/-- A machine in a call was in that call before its last step, or the step has made the call. -/
theorem within_of_within {outer : List Frame} (hq : q.machine.Within outer k)
    (h : image.advance p = .next q) :
    p.machine.Within outer k ∨ p.machine.depth = outer.length ∧ k = p.machine.pc + 1 := by
  obtain ⟨-, rfl⟩ | ⟨i, -, hgo | ⟨dest, ty, v, -, hm⟩⟩ := advance_cases h
  · exact .inl hq
  · refine (hgo.within_of_within hq).imp (·.of_noted) fun ⟨hframes, hk⟩ => ⟨?_, ?_⟩
    · rw [← hframes, Machine.length_frames, Machine.depth_noted]
    · rw [hk, Machine.pc_noted]
  · rw [hm] at hq
    exact .inl (Machine.Within.of_noted (Machine.Within.of_write hq))

/-- The machine in a call that goes back to `k` has come from where the call was made, and has not
left the call since. -/
theorem exists_call_of_within {outer : List Frame} {past : List Machine}
    (h : image.Passes p past r)
    (hwithin : r.machine.Within outer k) (hlen : p.machine.depth ≤ outer.length) :
    ∃ (x : Point) (before during : List Machine), past = during ++ x.machine :: before ∧
      image.Passes p before x ∧ image.Passes x (during ++ [x.machine]) r ∧
      x.machine.depth = outer.length ∧ k = x.machine.pc + 1 ∧
      ∀ m ∈ during, outer.length < m.depth := by
  induction h with
  | refl => exact absurd hwithin.lt_depth (Nat.not_lt.2 hlen)
  | @tail past q r hq hadv ih =>
    obtain hin | ⟨hdepth, hpc⟩ := within_of_within hwithin hadv
    · obtain ⟨x, before, during, rfl, hx, hr, hdepth, hk, hduring⟩ := ih hin
      exact ⟨x, before, q.machine :: during, rfl, hx, hr.tail hadv, hdepth, hk,
        List.forall_mem_cons.2 ⟨hin.lt_depth, hduring⟩⟩
    · exact ⟨q, past, [], rfl, hq, .tail .refl hadv, hdepth, hpc, nofun⟩

theorem unread_of_advance (h : image.advance p = .next q) : q.unread <:+ p.unread := by
  obtain ⟨m, -, rfl⟩ | ⟨m, dest, ty, line, rest, v, -, hunread, -, rfl⟩ :=
    advance_eq_next_iff.1 h
  · exact List.suffix_refl _
  · rw [hunread]
    exact List.suffix_cons line rest

theorem unread_of_passes {past : List Machine} (h : image.Passes p past q) :
    q.unread <:+ p.unread := by
  induction h with
  | refl => exact List.suffix_refl _
  | tail _ hadv ih => exact (unread_of_advance hadv).trans ih

/-- A call of a function of the program enters a frame that goes back behind the call. -/
theorem advance_of_call {name : String} {argc line : Nat}
    (hp : image.action? p.machine = some ⟨.call (.user name) argc, line⟩)
    (h : image.advance p = .next q) : ∃ (f : Frame) (k : Nat) (args : List Value),
      f.returnAddress = p.machine.pc + 1 ∧ q.machine =
        { p.machine.noted line with
          pc := k
          calls := f :: (p.machine.noted line).calls
          args := args
          returned := none } := by
  obtain ⟨hi, hl⟩ := action?_eq_some.1 hp
  obtain ⟨j, hj, ⟨hlabel, -⟩ | ⟨m, hgo, rfl⟩ | ⟨dest, ty, line, rest, v, hop, -⟩⟩ :=
    advance_eq_next h <;> obtain rfl := Option.some.inj (hi.symm.trans hj)
  · cases hlabel
  · cases hgo with
    | write hw => cases hw
    | user => exact ⟨_, _, _, congrArg (· + 1) (Machine.pc_noted _ _), rfl⟩
  · cases hop

/-- When a call has returned, the frames around it are those from which it was entered, and the run
goes on behind it. -/
theorem frames_of_returned {name : String} {argc line : Nat} {during : List Machine}
    (hp : image.action? p.machine = some ⟨.call (.user name) argc, line⟩)
    (hq : image.advance p = .next q) (hr : image.Passes q during r)
    (hin : ∀ m ∈ during, p.machine.depth < m.depth)
    (hout : r.machine.depth ≤ p.machine.depth) :
    r.machine.frames = (p.machine.noted line).frames ∧ r.machine.pc = p.machine.pc + 1 := by
  obtain ⟨f, k, args, hf, hm⟩ := advance_of_call hp hq
  have hdepth : (p.machine.noted line).frames.length = p.machine.depth := by
    rw [Machine.length_frames, Machine.depth_noted]
  have hwithin : q.machine.Within (p.machine.noted line).frames (p.machine.pc + 1) :=
    ⟨[], f, by rw [hm]; rfl, hf⟩
  rw [← hdepth] at hin hout
  obtain hwithin | hback := within_of_passes hwithin hr hin
  · exact absurd hwithin.lt_depth (Nat.not_lt.2 hout)
  · exact hback

/-- What a run passes in its next `n` steps, the last first, and where it comes in them. -/
def trail (image : Image) : Nat → Point → Option (List Machine × Point)
  | 0, p => some ([], p)
  | n + 1, p => (image.trail n p).bind fun (past, q) =>
      (image.advance q).point?.map fun r => (q.machine :: past, r)

theorem passes_of_trail {n : Nat} {x : List Machine × Point} (h : image.trail n p = some x) :
    image.Passes p x.1 x.2 := by
  induction n generalizing x with
  | zero =>
    cases h
    exact .refl
  | succ n ih =>
    obtain ⟨y, hy, h⟩ := Option.bind_eq_some_iff.1 h
    obtain ⟨r, hr, rfl⟩ := Option.map_eq_some_iff.1 h
    exact (ih hy).tail (Advance.point?_eq_some.1 hr)

end Image

/-! ### Sessions -/

namespace Session

variable {image : Image}

/-- Calls of functions of the program are isolated.  When a run has entered such a call and comes
back to as many frames as there were before, all frames that existed at the call are as they were
right after it was entered, whatever was executed in between, and the run goes on with the
instruction behind the call.  Only global variables, what the last call gave, waiting arguments, the
angle mode and the output can differ, the run has counted the instructions in between, and it may
have read lines.  Runs in sessions are no different: whatever commands lead from the beginning to
one session and from there to another, both stand in one run, the first not after the second. -/
theorem calls_isolated (image : Image) :
    (∀ (p q r : Point) name argc line during,
      image.action? p.machine = some ⟨.call (.user name) argc, line⟩ →
      image.advance p = .next q → image.Passes q during r →
      (∀ m ∈ during, p.machine.depth < m.depth) → r.machine.depth ≤ p.machine.depth →
        r.machine.frames = q.machine.frames.tail ∧ r.machine.pc = p.machine.pc + 1 ∧
        r.machine =
          { p.machine.noted line with
            pc := p.machine.pc + 1
            executed := q.machine.executed + during.countP image.acts
            globals := r.machine.globals
            args := r.machine.args
            returned := r.machine.returned
            angle := r.machine.angle
            output := r.machine.output } ∧
        r.unread <:+ q.unread) ∧
    ∀ s t, Leads image (start image) s → Leads image s t →
      ∃ lines before p later q, image.Passes (image.startPoint lines) before p ∧
        StandsAt image p.machine s ∧ image.Passes p later q ∧ StandsAt image q.machine t := by
  refine ⟨fun p q r name argc line during hp hq hr hin hout => ?_, fun s t hs ht => ?_⟩
  · obtain ⟨hframes, hpc⟩ := Image.frames_of_returned hp hq hr hin hout
    obtain ⟨f, k, args, -, hm⟩ := Image.advance_of_call hp hq
    have hentered : q.machine.frames.tail = (p.machine.noted line).frames := by
      rw [hm]
      rfl
    have hexecuted := Image.executed_of_passes hr
    obtain ⟨hcalls, hmain⟩ := List.append_inj' hframes rfl
    refine ⟨hframes.trans hentered.symm, hpc, ?_, Image.unread_of_passes hr⟩
    generalize r.machine = m at *
    cases m
    simp_all
  · obtain ⟨lines, before, m, hm, hstands⟩ := hs.exists_passes
    obtain ⟨more, later, n, hn, hstands'⟩ := hstands.exists_passes_of_leads ht
    have hstart : image.Passes (image.startPoint (lines ++ more)) before ⟨m, more⟩ :=
      hm.append more
    exact ⟨_, before, _, later, _, hstart, hstands, hn, hstands'⟩

/-- Code of a function that asks for a whole number, calls itself once, and gives the number that
was read before that. -/
def inquiring : Image where
  instrs := #[⟨.param (.const (.bool true)), 5⟩, ⟨.call (.user "ask") 1, 5⟩,
    ⟨.print .returned true, 5⟩, ⟨.halt, 5⟩, ⟨.label (.function "ask"), 1⟩,
    ⟨.input (.var ⟨"n", .local⟩) .int, 2⟩,
    ⟨.jumpIfFalse (.place (.var ⟨"again", .local⟩)) (.local 0), 3⟩,
    ⟨.param (.const (.bool false)), 3⟩, ⟨.call (.user "ask") 1, 3⟩, ⟨.label (.local 0), 3⟩,
    ⟨.return (some (.place (.var ⟨"n", .local⟩))), 4⟩]
  functions := [("ask", ⟨"ask", .function "ask", [⟨"again", .local⟩], true, 1⟩)]
  labels := [(.function "ask", 4), (.local 0, 9)]
  settings := {}

/-- The call from line 3 reads a number of its own, and the frames around it are as they were.  A
session that asks for that number stands in the same run as the one that has ended after it. -/
theorem calls_isolated_inquiring :
    Image.ofCode ⟨inquiring.instrs.toList, inquiring.functions.map (·.2)⟩ {} = .ok inquiring ∧
    (∃ (p q r : Point) (during : List Machine),
      inquiring.action? p.machine = some ⟨.call (.user "ask") 1, 3⟩ ∧
      inquiring.advance p = .next q ∧ inquiring.Passes q during r ∧
      r.machine.frames = q.machine.frames.tail ∧ r.machine.pc = 9 ∧
      p.machine.depth = 2 ∧ r.machine.depth = 2 ∧ q.unread = ["2"] ∧ r.unread = []) ∧
    ∃ s t, s.status = .awaitingInput (.var ⟨"n", .local⟩) .int ∧ s.machine.depth = 3 ∧
      t.status = .halted .finished ∧ t.machine.output = "1\n" ∧
      ∃ lines before p later q, inquiring.Passes (inquiring.startPoint lines) before p ∧
        StandsAt inquiring p.machine s ∧ inquiring.Passes p later q ∧
        StandsAt inquiring q.machine t := by
  obtain ⟨hcalls, hsessions⟩ := calls_isolated inquiring
  refine ⟨rfl, ?_, ?_⟩
  · let x := (inquiring.trail 6 (inquiring.startPoint ["1", "2"])).get (by decide +kernel)
    let q := (inquiring.advance x.2).point?.get (by decide +kernel)
    let y := (inquiring.trail 5 q).get (by decide +kernel)
    have hp : inquiring.action? x.2.machine = some ⟨.call (.user "ask") 1, 3⟩ := by
      decide +kernel
    have hq : inquiring.advance x.2 = .next q :=
      Advance.point?_eq_some.1 (Option.some_get _).symm
    have hr : inquiring.Passes q y.1 y.2 := Image.passes_of_trail (Option.some_get _).symm
    obtain ⟨hframes, hpc, -⟩ := hcalls x.2 q y.2 "ask" 1 3 y.1 hp hq hr (by decide +kernel)
      (by decide +kernel)
    exact ⟨x.2, q, y.2, y.1, hp, hq, hr, hframes, hpc.trans (by decide +kernel),
      by decide +kernel, by decide +kernel, by decide +kernel, by decide +kernel⟩
  · let s₁ := ((start inquiring).perform inquiring 20 .resume).get (by decide +kernel)
    let s₂ := (s₁.perform inquiring 20 (.provideInput "1")).get (by decide +kernel)
    let s₃ := (s₂.perform inquiring 20 (.provideInput "2")).get (by decide +kernel)
    have h₂ : Leads inquiring (start inquiring) s₂ :=
      (Leads.refl.tail (Option.some_get _).symm).tail (Option.some_get _).symm
    have h₃ : Leads inquiring s₂ s₃ := Leads.refl.tail (Option.some_get _).symm
    exact ⟨s₂, s₃, by decide +kernel, by decide +kernel, by decide +kernel, by decide +kernel,
      hsessions s₂ s₃ h₂ h₃⟩

end Session

end NumericScript
