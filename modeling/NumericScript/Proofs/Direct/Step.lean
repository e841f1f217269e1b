import NumericScript.Proofs.Direct.Tracks
import NumericScript.Proofs.Link
import NumericScript.Proofs.Lowering.Supply
import NumericScript.Proofs.Typing.Run

/-! # Instructions and acts

What single instructions of lowered code do to the world that a machine shows, and what they leave
alone: the frames around the one at hand, the arguments for the next call, and the temporaries that
were supplied before.

* `Ready`: linked code that runs without a bound on its steps.
* `Went`: what a piece of code leaves alone.
* `tracks_temp`, `tracks_variable`, `tracks_jumpIfFalse`, …: the instructions. -/

namespace NumericScript

open Direct Lowering Machine

/-! ### Linked code -/

/-- Linked code that runs without a bound on its steps. -/
structure Ready (code : List Instr) (image : Image) : Prop where
  instrs : image.instrs = code.toArray
  unlimited : image.settings.maxSteps = none
  labels : ∀ {k : Nat} {i : Instr} {l : Label}, code[k]? = some i → i.op.label? = some l →
    image.position l = .ok k
  targets : ∀ {k : Nat} {i : Instr} {l : Label}, code[k]? = some i → i.op.target? = some l →
    ∃ j, image.position l = .ok j

theorem Ready.of_linked {c : Code} {settings : MachineSettings}
    (h : Linked c.functions c.instrs) (hs : settings.maxSteps = none) :
    Ready c.instrs (c.link settings) where
  instrs := rfl
  unlimited := hs
  labels := fun hi hl => (position_link h.distinct).2 ⟨_, hi, hl⟩
  targets := fun hi hl =>
    exists_position h.distinct (h.targets _ (List.mem_of_getElem? hi) _ hl)

/-! ### What code leaves alone -/

/-- A frame without what its code changes. -/
def Frame.cleared (f : Frame) : Frame := { f with line := none, locals := [], temps := [] }

namespace Machine

/-- The call at hand without what its code changes, and the frames around it. -/
def home (m : Machine) : Option (Frame × List Frame × Frame) :=
  match m.calls with
  | [] => none
  | f :: fs => some (f.cleared, fs, m.main)

theorem home_modifyFrame (m : Machine) {g : Frame → Frame}
    (hg : ∀ f, (g f).cleared = f.cleared) : (m.modifyFrame g).home = m.home := by
  unfold modifyFrame home
  cases hc : m.calls with
  | nil => simp
  | cons f fs => simp [hg]

@[simp] theorem home_noted (m : Machine) (line : Nat) : (m.noted line).home = m.home :=
  home_modifyFrame { m with executed := m.executed + 1 } fun _ => rfl

@[simp] theorem home_write (m : Machine) (d : Place) (v : Value) : (m.write d v).home = m.home := by
  rcases d with t | ⟨slot, storage⟩
  · exact home_modifyFrame m fun _ => rfl
  · cases storage with
    | global => rfl
    | «local» => exact home_modifyFrame m fun _ => rfl

theorem length_calls_of_home {m m' : Machine} (h : m'.home = m.home) :
    m'.calls.length = m.calls.length := by
  unfold home at h
  cases hc : m.calls <;> cases hc' : m'.calls <;> simp_all

@[simp] theorem temps_noted (m : Machine) (line : Nat) :
    (m.noted line).frame.temps = m.frame.temps := by
  rw [frame_noted]

@[simp] theorem args_write (m : Machine) (d : Place) (v : Value) :
    (m.write d v).args = m.args := by
  rcases d with t | ⟨slot, storage⟩
  · exact args_modifyFrame m _
  · cases storage with
    | global => rfl
    | «local» => exact args_modifyFrame m _

theorem get?_temps_write (m : Machine) (d : Place) (v : Value) (u : Nat) :
    (m.write d v).frame.temps.get? u =
      if d = .temp u then some v else m.frame.temps.get? u := by
  exact read?_write m d (.temp u) v

end Machine

/-- Code leads from `p` to position `k` and leaves `args` for the next call.  What it leaves alone
is as it was: the frames around the one at hand, and the temporaries below `bound`. -/
structure Went (bound : Nat) (p : Point) (k : Nat) (args : List Value) (q : Point) : Prop where
  pc : q.machine.pc = k
  args : q.machine.args = args
  home : q.machine.home = p.machine.home
  temps : ∀ t < bound, q.machine.frame.temps.get? t = p.machine.frame.temps.get? t

namespace Went

variable {bound bound' k k' : Nat} {p q r : Point} {args args' : List Value}

theorem refl (bound : Nat) (hk : p.machine.pc = k) : Went bound p k p.machine.args p :=
  ⟨hk, rfl, rfl, fun _ _ => rfl⟩

theorem trans (h : Went bound p k args q) (h' : Went bound' q k' args' r)
    (hb : bound ≤ bound') : Went bound p k' args' r where
  pc := h'.pc
  args := h'.args
  home := h'.home.trans h.home
  temps := fun t ht => (h'.temps t (Nat.lt_of_lt_of_le ht hb)).trans (h.temps t ht)

/-- What is left for the next call stays if no arguments are added. -/
theorem seq (h : Went bound p k args q) (h' : Went bound' q k' q.machine.args r)
    (hb : bound ≤ bound') : Went bound p k' args r := h.trans (h.args ▸ h') hb

theorem of_le (h : Went bound p k args q) (hb : bound' ≤ bound) : Went bound' p k args q :=
  ⟨h.pc, h.args, h.home, fun t ht => h.temps t (Nat.lt_of_lt_of_le ht hb)⟩

end Went

/-! ### Instructions -/

section

variable {code : List Instr} {image : Image} {p : Point} {op : Op} {line n k bound : Nat}

namespace Ready

theorem getElem? (hr : Ready code image) {k : Nat} {i : Instr} (h : code[k]? = some i) :
    image.instrs[k]? = some i := by
  rwa [hr.instrs, List.getElem?_toArray]

theorem line? (hr : Ready code image) {k : Nat} (h : code[k]? = some ⟨op, line⟩) :
    image.line? k = some line := by
  rw [Image.line?, hr.getElem? h]
  rfl

theorem advance_of_label (hr : Ready code image) {l : Label}
    (h : code[p.machine.pc]? = some ⟨.label l, line⟩) :
    image.advance p = .next ⟨p.machine.next, p.unread⟩ :=
  Image.advance_of_label (hr.getElem? h) rfl

theorem advance_of_go (hr : Ready code image) (h : code[p.machine.pc]? = some ⟨op, line⟩)
    (hl : op.label? = none) {m : Machine}
    (he : execute image (p.machine.noted line) op = .ok (.go m)) :
    image.advance p = .next ⟨m, p.unread⟩ := by
  rw [Image.advance_of_op hr.unlimited (hr.getElem? h) hl]
  dsimp only
  rw [he]
  rfl

/-- A fault is that of the world in the line of the instruction. -/
theorem faultOutcome (hr : Ready code image) (h : code[p.machine.pc]? = some ⟨op, line⟩)
    (f : Fault) (unread : List String) :
    image.faultOutcome (p.machine.noted line) f unread =
      ({ p.world with unread := unread } : World).faulted line f := by
  unfold Image.faultOutcome World.faulted
  rw [pc_noted, hr.line? h, output_noted]
  rfl

theorem advance_of_error (hr : Ready code image) (h : code[p.machine.pc]? = some ⟨op, line⟩)
    (hl : op.label? = none) {f : Fault}
    (he : execute image (p.machine.noted line) op = .error f) :
    image.advance p = .done (p.world.faulted line f) := by
  rw [Image.advance_of_op hr.unlimited (hr.getElem? h) hl]
  dsimp only
  rw [he]
  exact congrArg Advance.done (hr.faultOutcome h f p.unread)

/-- An instruction that goes wrong is a fault of the run. -/
theorem faults (hr : Ready code image) (h : code[p.machine.pc]? = some ⟨op, line⟩)
    (hl : op.label? = none) {f : Fault}
    (he : execute image (p.machine.noted line) op = .error f) : image.Faults p f := by
  refine .step (m := p.machine.noted line) ?_
  have hwithin : overLimit image.settings
      { p.machine with executed := p.machine.executed + 1 } = none := by
    rw [overLimit, hr.unlimited]
  unfold noted at he ⊢
  simp [step, perform, hr.getElem? h, hl, hwithin, he]

end Ready

variable {α : Type} {x : Except Fault α}

/-- An instruction that checks something and leads to a point that shows the same world. -/
theorem tracks_check (hr : Ready code image) {Q : α → Point → Prop} (m : α → Machine)
    (h : code[p.machine.pc]? = some ⟨op, line⟩) (hl : op.label? = none)
    (he : execute image (p.machine.noted line) op = x >>= fun a => .ok (.go (m a)))
    (hw : ∀ a, Point.world ⟨m a, p.unread⟩ = p.world) (hQ : ∀ a, Q a ⟨m a, p.unread⟩) :
    Tracks image n p Q (check line x p.world) := by
  cases x with
  | error f => exact .done (hr.advance_of_error h hl he)
  | ok a => exact ⟨_, .tail .refl (hr.advance_of_go h hl he), hw a, hQ a⟩

/-- An instruction that checks something and changes the world. -/
theorem tracks_modify (hr : Ready code image) {Q : Point → Prop} {g : α → World → World}
    (m : α → Machine) (h : code[p.machine.pc]? = some ⟨op, line⟩) (hl : op.label? = none)
    (he : execute image (p.machine.noted line) op = x >>= fun a => .ok (.go (m a)))
    (hw : ∀ a, Point.world ⟨m a, p.unread⟩ = g a p.world) (hQ : ∀ a, Q ⟨m a, p.unread⟩) :
    Tracks image n p (fun _ => Q)
      ((do let a ← check line x; modify (g a) : Act Unit) p.world) := by
  cases x with
  | error f => exact .done (hr.advance_of_error h hl he)
  | ok a => exact ⟨_, .tail .refl (hr.advance_of_go h hl he), hw a, hQ a⟩

theorem execute_noted_of_effect {m : Machine} {d : Place} {x : Except Fault Value}
    (he : m.effect op = some (d, x)) :
    execute image (m.noted line) op =
      x >>= fun v => .ok (.go ((m.noted line).write d v).next) :=
  execute_of_effect ((effect_noted m line op).trans he)

theorem label?_of_effect {m : Machine} {d : Place} {x : Except Fault Value}
    (he : m.effect op = some (d, x)) : op.label? = none := by
  cases op <;> first | rfl | cases he

theorem went_write {d : Place} (v : Value) (hd : ∀ t, d = .temp t → bound ≤ t) :
    Went bound p (p.machine.pc + 1) p.machine.args
      ⟨((p.machine.noted line).write d v).next, p.unread⟩ where
  pc := by simp [Machine.next]
  args := by simp [Machine.next]
  home := (home_write _ d v).trans (home_noted _ _)
  temps := by
    intro t ht
    have hne : d ≠ .temp t := fun h => absurd (hd t h) (Nat.not_le_of_lt ht)
    change ((p.machine.noted line).write d v).frame.temps.get? t = _
    rw [get?_temps_write, if_neg hne, temps_noted]

@[simp] theorem world_noted (m : Machine) (line : Nat) (unread : List String) :
    Point.world ⟨m.noted line, unread⟩ = Point.world ⟨m, unread⟩ := by
  simp [Point.world, frame_noted]

theorem world_write_temp (m : Machine) (t : Nat) (v : Value) (unread : List String) :
    Point.world ⟨(m.write (.temp t) v).next, unread⟩ = Point.world ⟨m, unread⟩ := by
  change World.mk (m.write (.temp t) v).globals (m.write (.temp t) v).frame.locals
    (m.write (.temp t) v).angle (m.write (.temp t) v).output unread = _
  simp only [write, globals_modifyFrame, frame_modifyFrame, angle_modifyFrame, output_modifyFrame]
  rfl

theorem world_write_variable (m : Machine) (b : Binding) (v : Value) (unread : List String) :
    Point.world ⟨(m.write (.var b.variable) v).next, unread⟩ =
      (Point.world ⟨m, unread⟩).set b v := by
  change World.mk (m.write (.var b.variable) v).globals (m.write (.var b.variable) v).frame.locals
    (m.write (.var b.variable) v).angle (m.write (.var b.variable) v).output unread = _
  rcases b with ⟨slot, ty, storage⟩
  cases storage with
  | global => rfl
  | «local» =>
    simp only [write, Binding.variable, globals_modifyFrame, frame_modifyFrame, angle_modifyFrame,
      output_modifyFrame]
    rfl

/-- An instruction that gives a temporary a value. -/
theorem tracks_temp (hr : Ready code image) {t : Nat} {x : Except Fault Value}
    (hk : p.machine.pc = k) (h : code[k]? = some ⟨op, line⟩)
    (he : p.machine.effect op = some (.temp t, x)) (hb : bound ≤ t) :
    Tracks image n p (fun v q => Went bound p (k + 1) p.machine.args q ∧
      q.machine.frame.temps.get? t = some v ∧ q.world = p.world) (check line x p.world) := by
  subst hk
  have hw : ∀ v, Point.world ⟨((p.machine.noted line).write (.temp t) v).next, p.unread⟩ =
      p.world := fun v => (world_write_temp _ _ _ _).trans (world_noted _ _ _)
  refine tracks_check hr _ h (label?_of_effect he) (execute_noted_of_effect he) hw
    fun v => ⟨went_write v (fun u hu => by cases hu; exact hb), ?_, hw v⟩
  change ((p.machine.noted line).write (.temp t) v).frame.temps.get? t = _
  rw [get?_temps_write, if_pos rfl]

/-- An instruction that gives a variable a value. -/
theorem tracks_variable (hr : Ready code image) (bound : Nat) {b : Binding}
    {x : Except Fault Value} (hk : p.machine.pc = k) (h : code[k]? = some ⟨op, line⟩)
    (he : p.machine.effect op = some (.var b.variable, x)) :
    Tracks image n p (fun _ => Went bound p (k + 1) p.machine.args)
      ((do let v ← check line x; modify (·.set b v) : Act Unit) p.world) := by
  subst hk
  exact tracks_modify hr _ h (label?_of_effect he) (execute_noted_of_effect he)
    (fun v => (world_write_variable _ _ _ _).trans (congrArg (World.set · b v) (world_noted _ _ _)))
    fun v => went_write v (by simp)

/-- A label is passed. -/
theorem passes_label (hr : Ready code image) {l : Label} (bound : Nat) (hk : p.machine.pc = k)
    (h : code[k]? = some ⟨.label l, line⟩) :
    ∃ q, image.advance p = .next q ∧ q.world = p.world ∧
      Went bound p (k + 1) p.machine.args q := by
  subst hk
  exact ⟨_, hr.advance_of_label h, rfl, rfl, rfl, rfl, fun _ _ => rfl⟩

/-- A machine that has noted a line and has not changed its frames since. -/
theorem went_noted (bound line : Nat) {q : Point} {k : Nat} {args : List Value}
    (hpc : q.machine.pc = k) (hargs : q.machine.args = args)
    (hhome : q.machine.home = (p.machine.noted line).home)
    (hframe : q.machine.frame = (p.machine.noted line).frame) : Went bound p k args q where
  pc := hpc
  args := hargs
  home := hhome.trans (home_noted _ _)
  temps := fun t _ => by rw [hframe, temps_noted]

/-- A jump leads to a label. -/
theorem takes_jump (hr : Ready code image) {l : Label} {j : Nat} (bound : Nat)
    (hk : p.machine.pc = k) (h : code[k]? = some ⟨.jump l, line⟩) (hl : image.position l = .ok j) :
    ∃ q, image.advance p = .next q ∧ q.world = p.world ∧
      Went bound p j p.machine.args q := by
  subst hk
  have he : execute image (p.machine.noted line) (.jump l) =
      .ok (.go { p.machine.noted line with pc := j }) := by
    rw [execute, hl]
    rfl
  refine ⟨_, hr.advance_of_go h rfl he, world_noted p.machine line p.unread, ?_⟩
  exact went_noted bound line rfl (args_noted p.machine line) rfl rfl

/-- A jump that is taken if something is false. -/
theorem tracks_jumpIfFalse (hr : Ready code image) {o : Operand} {c : Captured} {l : Label}
    {j : Nat} (bound : Nat) (hk : p.machine.pc = k)
    (h : code[k]? = some ⟨.jumpIfFalse o l, line⟩) (ho : p.machine.eval o = c)
    (hl : image.position l = .ok j) :
    Tracks image n p (fun b => Went bound p (if b then k + 1 else j) p.machine.args)
      (check line (do (← c).asBool) p.world) := by
  subst ho hk
  have he : execute image (p.machine.noted line) (.jumpIfFalse o l) =
      (do (← p.machine.eval o).asBool) >>= fun b =>
        .ok (.go { p.machine.noted line with pc := if b then p.machine.pc + 1 else j }) := by
    rw [execute, eval_noted, hl, bind_assoc]
    refine congrArg _ (funext fun v => congrArg _ (funext fun b => ?_))
    cases b with
    | false => rfl
    | true =>
      rw [if_pos rfl, if_pos rfl, ← pc_noted p.machine line]
      rfl
  refine tracks_check hr _ h rfl he (fun _ => world_noted p.machine line p.unread) fun b => ?_
  exact went_noted bound line rfl (args_noted p.machine line) rfl rfl

/-- An argument is added to those of the next call. -/
theorem tracks_param (hr : Ready code image) {o : Operand} {c : Captured} (bound : Nat)
    (hk : p.machine.pc = k) (h : code[k]? = some ⟨.param o, line⟩) (ho : p.machine.eval o = c) :
    Tracks image n p (fun v q => q.world = p.world ∧
      Went bound p (k + 1) (v :: p.machine.args) q) (check line c p.world) := by
  subst ho hk
  have he : execute image (p.machine.noted line) (.param o) =
      p.machine.eval o >>= fun v => .ok (.go { (p.machine.noted line).next with
        args := v :: (p.machine.noted line).args }) := by
    rw [execute, eval_noted]
    rfl
  have hw := world_noted p.machine line p.unread
  refine tracks_check hr _ h rfl he (fun _ => hw) fun v => ⟨hw, ?_⟩
  exact went_noted bound line (congrArg (· + 1) (pc_noted p.machine line))
    (congrArg (v :: ·) (args_noted p.machine line)) rfl rfl

/-- A value is printed. -/
theorem tracks_print (hr : Ready code image) {o : Operand} {c : Captured} {newline : Bool}
    (bound : Nat) (hk : p.machine.pc = k) (h : code[k]? = some ⟨.print o newline, line⟩)
    (ho : p.machine.eval o = c) :
    Tracks image n p (fun _ => Went bound p (k + 1) p.machine.args)
      ((do let v ← check line c; modify (·.print v newline) : Act Unit) p.world) := by
  subst ho hk
  have he : execute image (p.machine.noted line) (.print o newline) =
      p.machine.eval o >>= fun v => .ok (.go { (p.machine.noted line).next with
        output := (p.machine.noted line).output ++ v.text ++ separator newline }) := by
    rw [execute, eval_noted]
    rfl
  refine tracks_modify (g := fun v w => w.print v newline) hr _ h rfl he (fun v => ?_) fun v => ?_
  · exact congrArg (World.print · v newline) (world_noted p.machine line p.unread)
  · exact went_noted bound line (congrArg (· + 1) (pc_noted p.machine line))
      (args_noted p.machine line) rfl rfl

/-- A line is read into a variable. -/
theorem tracks_input (hr : Ready code image) {x : Name} {b : Binding} (bound : Nat)
    (hk : p.machine.pc = k) (h : code[k]? = some ⟨.input (.var b.variable) b.ty, line⟩)
    (hb : x.binding = some b) :
    Tracks image n p (fun _ => Went bound p (k + 1) p.machine.args)
      (Direct.read line x p.world) := by
  subst hk
  rcases p with ⟨m, unread⟩
  have hadv := Image.advance_of_op (p := ⟨m, unread⟩) hr.unlimited (hr.getElem? h) rfl
  have he : execute image (m.noted line) (.input (.var b.variable) b.ty) =
    .ok (.await (.var b.variable) b.ty) := rfl
  dsimp only at hadv h
  rw [he] at hadv
  unfold Direct.read
  rw [hb]
  dsimp only
  cases unread with
  | nil =>
    refine .done (hadv.trans (congrArg Advance.done ?_))
    unfold Image.cancelOutcome World.cancelled
    rw [pc_noted, hr.line? h, output_noted]
    rfl
  | cons text rest =>
    change Tracks image n _ _ ((do
      let v ← check line (Value.ofInput text b.ty)
      modify (·.set b v) : Act Unit) (Point.world ⟨m, rest⟩))
    cases hv : Value.ofInput text b.ty with
    | error f =>
      refine .done (hadv.trans ?_)
      unfold Image.follow
      dsimp only
      rw [hv]
      exact congrArg Advance.done (hr.faultOutcome (p := ⟨m, text :: rest⟩) h f rest)
    | ok v =>
      refine ⟨⟨((m.noted line).write (.var b.variable) v).next, rest⟩, .tail .refl (hadv.trans ?_),
        ?_, ?_⟩
      · unfold Image.follow
        dsimp only
        rw [hv]
      · exact (world_write_variable _ _ _ _).trans
          (congrArg (World.set · b v) (world_noted m line rest))
      · have hwent := @went_write ⟨m, rest⟩ line bound (.var b.variable) v (by simp)
        exact ⟨hwent.pc, hwent.args, hwent.home, hwent.temps⟩

namespace Went

variable {q : Point} {args : List Value} {l : Label}

/-- The machine has come to a label. -/
theorem label (h : Went bound p k args q) (hr : Ready code image)
    (hat : code[k]? = some ⟨.label l, line⟩) :
    ∃ r, image.advance q = .next r ∧ r.world = q.world ∧ Went bound p (k + 1) args r := by
  obtain ⟨r, hadv, hw, hwent⟩ := passes_label hr bound h.pc hat
  exact ⟨r, hadv, hw, h.seq hwent (Nat.le_refl _)⟩

/-- The machine has come to a jump. -/
theorem jump {j : Nat} (h : Went bound p k args q) (hr : Ready code image)
    (hat : code[k]? = some ⟨.jump l, line⟩) (hl : image.position l = .ok j) :
    ∃ r, image.advance q = .next r ∧ r.world = q.world ∧ Went bound p j args r := by
  obtain ⟨r, hadv, hw, hwent⟩ := takes_jump hr bound h.pc hat hl
  exact ⟨r, hadv, hw, h.seq hwent (Nat.le_refl _)⟩

end Went

end

end NumericScript
