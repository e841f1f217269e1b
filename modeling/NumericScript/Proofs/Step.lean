import NumericScript.Proofs.Simulation

/-! # What a step of a run does

A step passes a label, executes an operation, or reads a line of input, provided that the
number of steps is not limited.

* `Machine.execute_of_effect`: operations that do nothing but give a place a value.
* `Machine.goes_of_execute`: the ways in which an operation lets the machine go on.
* `Image.advance_eq_next`: the ways in which a run goes on. -/

namespace NumericScript

namespace Machine

/-- The machine that has counted an instruction and noted its line. -/
def noted (m : Machine) (line : Nat) : Machine :=
  { m with executed := m.executed + 1 }.modifyFrame fun f => { f with line := some line }

@[simp] theorem pc_modifyFrame (m : Machine) (f : Frame → Frame) :
    (m.modifyFrame f).pc = m.pc := by
  unfold modifyFrame
  split <;> rfl

@[simp] theorem output_modifyFrame (m : Machine) (f : Frame → Frame) :
    (m.modifyFrame f).output = m.output := by
  unfold modifyFrame
  split <;> rfl

@[simp] theorem returned_modifyFrame (m : Machine) (f : Frame → Frame) :
    (m.modifyFrame f).returned = m.returned := by
  unfold modifyFrame
  split <;> rfl

@[simp] theorem args_modifyFrame (m : Machine) (f : Frame → Frame) :
    (m.modifyFrame f).args = m.args := by
  unfold modifyFrame
  split <;> rfl

@[simp] theorem angle_modifyFrame (m : Machine) (f : Frame → Frame) :
    (m.modifyFrame f).angle = m.angle := by
  unfold modifyFrame
  split <;> rfl

@[simp] theorem pc_noted (m : Machine) (line : Nat) : (m.noted line).pc = m.pc := by
  simp [noted]

@[simp] theorem output_noted (m : Machine) (line : Nat) :
    (m.noted line).output = m.output := by
  simp [noted]

@[simp] theorem returned_noted (m : Machine) (line : Nat) :
    (m.noted line).returned = m.returned := by
  simp [noted]

@[simp] theorem globals_noted (m : Machine) (line : Nat) :
    (m.noted line).globals = m.globals := by
  simp [noted]

@[simp] theorem args_noted (m : Machine) (line : Nat) : (m.noted line).args = m.args := by
  simp [noted]

@[simp] theorem angle_noted (m : Machine) (line : Nat) : (m.noted line).angle = m.angle := by
  simp [noted]

theorem frame_noted (m : Machine) (line : Nat) :
    (m.noted line).frame = { m.frame with line := some line } := by
  rw [noted, frame_modifyFrame]
  rfl

@[simp] theorem read?_noted (m : Machine) (line : Nat) (p : Place) :
    (m.noted line).read? p = m.read? p := by
  rcases p with t | ⟨slot, storage⟩
  · simp [read?, frame_noted]
  · cases storage <;> simp [read?, frame_noted]

@[simp] theorem read_noted (m : Machine) (line : Nat) (p : Place) :
    (m.noted line).read p = m.read p := by
  simp [read]

@[simp] theorem eval_noted (m : Machine) (line : Nat) (o : Operand) :
    (m.noted line).eval o = m.eval o := by
  cases o <;> simp [eval]

@[simp] theorem read?_next (m : Machine) (p : Place) : m.next.read? p = m.read? p := rfl

@[simp] theorem pc_write (m : Machine) (p : Place) (v : Value) : (m.write p v).pc = m.pc := by
  rcases p with t | ⟨slot, storage⟩
  · simp [write]
  · cases storage <;> simp [write]

/-! ### Operations -/

/-- The place to which an operation gives a value, and that value or the fault. -/
def effect (m : Machine) : Op → Option (Place × Except Fault Value)
  | .assign d c => some (d, .ok c.toValue)
  | .copy d src => some (d, m.eval src)
  | .binary d op l r => some (d, do op.apply (← m.eval l) (← m.eval r))
  | .unary d f o => some (d, do f.apply (← m.eval o))
  | .newArray d len => some (d, .ok (.array (List.replicate len .void)))
  | .newMatrix d rows cols => some (d, .ok (.matrix (.zeros rows cols)))
  | .load d base row col => some (d, do
      let i ← m.evalInt row
      let j ← m.evalIndex col
      (← m.eval base).loadIndex i j)
  | .store base row col o => some (base, do
      let i ← m.evalInt row
      let j ← m.evalIndex col
      let v ← m.eval o
      (← m.read base).storeIndex i j v)
  | _ => none

@[simp] theorem effect_noted (m : Machine) (line : Nat) (op : Op) :
    (m.noted line).effect op = m.effect op := by
  have hidx : ∀ o : Option Operand, (m.noted line).evalIndex o = m.evalIndex o := fun o => by
    cases o <;> simp [evalIndex, evalInt]
  cases op <;> simp [effect, evalInt, hidx]

/-- What an operation that returns gives. -/
def givesBack (m : Machine) : Option Operand → Except Fault (Option Value)
  | none => .ok none
  | some o => some <$> m.eval o

theorem bind_eq_ok {α β : Type} {x : Except Fault α} {f : α → Except Fault β} {b : β} :
    (x >>= f) = .ok b ↔ ∃ a, x = .ok a ∧ f a = .ok b := by
  cases x with
  | error e => exact ⟨nofun, fun ⟨_, h, _⟩ => nomatch h⟩
  | ok a => exact ⟨fun h => ⟨a, rfl, h⟩, fun ⟨_, h, h'⟩ => by cases h; exact h'⟩

/-- An operation that gives a place a value does nothing else. -/
theorem execute_of_effect {image : Image} {m : Machine} {op : Op} {d : Place}
    {x : Except Fault Value} (h : m.effect op = some (d, x)) :
    execute image m op = x >>= fun v => .ok (Flow.write m d v) := by
  cases op <;> cases h
  case assign => rfl
  case copy => rfl
  case newArray => rfl
  case newMatrix => rfl
  all_goals simp only [execute, bind_assoc, pure, Except.pure]

/-- The ways in which an operation lets the machine go on. -/
inductive Goes (image : Image) (m : Machine) : Op → Machine → Prop where
  | write {op : Op} {d : Place} {v : Value} (h : m.effect op = some (d, .ok v)) :
      Goes image m op (m.write d v).next
  | label {l : Label} : Goes image m (.label l) m.next
  | jump {l : Label} {k : Nat} (h : image.position l = .ok k) :
      Goes image m (.jump l) { m with pc := k }
  | pass {c : Operand} {l : Label} (h : m.eval c = .ok (.bool true)) :
      Goes image m (.jumpIfFalse c l) m.next
  | branch {c : Operand} {l : Label} {k : Nat} (hc : m.eval c = .ok (.bool false))
      (h : image.position l = .ok k) : Goes image m (.jumpIfFalse c l) { m with pc := k }
  | param {o : Operand} {v : Value} (h : m.eval o = .ok v) :
      Goes image m (.param o) { m.next with args := v :: m.args }
  | builtin {f : Builtin} {argc : Nat} {v : Value} {angle : AngleMode}
      (hlen : argc ≤ m.args.length)
      (h : f.call (m.args.take argc).reverse m.angle = .ok (v, angle)) :
      Goes image m (.call (.builtin f) argc)
        { m.next with args := m.args.drop argc, returned := some v, angle := angle }
  | user {name : String} {argc k : Nat} {f : FunctionInfo} (hlen : argc ≤ m.args.length)
      (hf : image.functions.get? name = some f)
      (harity : f.params.length = (m.args.take argc).reverse.length)
      (hdepth : m.calls.length < image.settings.maxCallDepth)
      (h : image.position f.label = .ok k) :
      Goes image m (.call (.user name) argc)
        { m with
          pc := k
          calls := callFrame f (m.args.take argc).reverse (m.pc + 1) :: m.calls
          args := m.args.drop argc
          returned := none }
  | leave {o : Option Operand} {v : Option Value} {f : Frame} {fs : List Frame}
      (ho : m.givesBack o = .ok v) (hc : m.calls = f :: fs)
      (h : f.returnsValue = true → v.isSome) :
      Goes image m (.return o)
        { m with pc := f.returnAddress, calls := fs, returned := v }
  | print {o : Operand} {newline : Bool} {v : Value} (h : m.eval o = .ok v) :
      Goes image m (.print o newline)
        { m.next with output := m.output ++ v.text ++ separator newline }

/-- A call lets the machine go on in the builtin's or in the function's way. -/
theorem call_eq_go {image : Image} {m m' : Machine} {callee : Callee} {argc : Nat}
    (h : call image m callee argc = .ok (.go m')) : Goes image m (.call callee argc) m' := by
  unfold call at h
  split at h
  · cases h
  · rename_i hlen
    cases callee with
    | builtin f =>
      obtain ⟨⟨v, angle⟩, hv, h⟩ := bind_eq_ok.1 h
      cases h
      exact .builtin (Nat.le_of_not_lt hlen) hv
    | user name =>
      dsimp only [callUser] at h
      cases hf : image.functions.get? name with
      | none => rw [hf] at h; cases h
      | some f =>
        rw [hf] at h
        dsimp only at h
        split at h
        · cases h
        · rename_i harity
          split at h
          · cases h
          · rename_i hdepth
            obtain ⟨k, hk, h⟩ := bind_eq_ok.1 h
            cases h
            exact .user (Nat.le_of_not_lt hlen) hf (Decidable.not_not.1 harity)
              (Nat.lt_of_not_le hdepth) hk

theorem leave_eq_go {m m' : Machine} {v : Option Value} (h : leave m v = .ok (.go m')) :
    ∃ f fs, m.calls = f :: fs ∧ (f.returnsValue = true → v.isSome) ∧
      m' = { m with pc := f.returnAddress, calls := fs, returned := v } := by
  unfold leave at h
  cases hc : m.calls with
  | nil => rw [hc] at h; cases h
  | cons f fs =>
    rw [hc] at h
    dsimp only at h
    split at h
    · cases h
    · rename_i hr
      cases h
      refine ⟨f, fs, rfl, fun hf => ?_, rfl⟩
      cases v <;> simp_all

theorem asBool_eq_ok {v : Value} {b : Bool} : v.asBool = .ok b ↔ v = .bool b := by
  cases v <;> simp [Value.asBool]

/-- An operation lets the machine go on in one of the ways above. -/
theorem goes_of_execute {image : Image} {m m' : Machine} {op : Op}
    (h : execute image m op = .ok (.go m')) : Goes image m op m' := by
  cases he : m.effect op with
  | some p =>
    obtain ⟨d, x⟩ := p
    rw [execute_of_effect he] at h
    obtain ⟨v, hv, h⟩ := bind_eq_ok.1 h
    cases h
    exact .write (by rw [he, hv])
  | none =>
    cases op with
    | label l => cases h; exact .label
    | jump l =>
      obtain ⟨k, hk, h⟩ := bind_eq_ok.1 h
      cases h
      exact .jump hk
    | jumpIfFalse c l =>
      obtain ⟨v, hv, h⟩ := bind_eq_ok.1 h
      obtain ⟨b, hb, hgo⟩ := bind_eq_ok.1 h
      obtain rfl := asBool_eq_ok.1 hb
      cases b with
      | true =>
        rw [if_pos rfl] at hgo
        cases hgo
        exact .pass hv
      | false =>
        rw [if_neg Bool.false_ne_true] at hgo
        obtain ⟨k, hk, hgo⟩ := bind_eq_ok.1 hgo
        cases hgo
        exact .branch hv hk
    | param o =>
      obtain ⟨v, hv, h⟩ := bind_eq_ok.1 h
      cases h
      exact .param hv
    | call f argc => exact call_eq_go h
    | «return» o =>
      cases o with
      | none =>
        obtain ⟨f, fs, hc, hr, rfl⟩ := leave_eq_go h
        exact .leave rfl hc hr
      | some o =>
        obtain ⟨v, hv, h⟩ := bind_eq_ok.1 h
        obtain ⟨f, fs, hc, hr, rfl⟩ := leave_eq_go h
        exact .leave (by rw [givesBack, hv]; rfl) hc hr
    | print o newline =>
      obtain ⟨v, hv, h⟩ := bind_eq_ok.1 h
      cases h
      exact .print hv
    | input d ty => cases h
    | halt => cases h
    | _ => cases he

/-- The operation that asks for input is the only one. -/
theorem eq_input_of_await {image : Image} {m : Machine} {op : Op} {dest : Place} {ty : Ty}
    (h : execute image m op = .ok (.await dest ty)) : op = .input dest ty := by
  cases he : m.effect op with
  | some p =>
    obtain ⟨d, x⟩ := p
    rw [execute_of_effect he] at h
    obtain ⟨v, hv, h⟩ := bind_eq_ok.1 h
    cases h
  | none =>
    cases op with
    | input d t => cases h; rfl
    | label l => cases h
    | halt => cases h
    | jump l => obtain ⟨k, hk, h⟩ := bind_eq_ok.1 h; cases h
    | param o => obtain ⟨v, hv, h⟩ := bind_eq_ok.1 h; cases h
    | print o newline => obtain ⟨v, hv, h⟩ := bind_eq_ok.1 h; cases h
    | jumpIfFalse c l =>
      obtain ⟨v, hv, h⟩ := bind_eq_ok.1 h
      obtain ⟨b, hb, h⟩ := bind_eq_ok.1 h
      cases b with
      | true => rw [if_pos rfl] at h; cases h
      | false =>
        rw [if_neg Bool.false_ne_true] at h
        obtain ⟨k, hk, h⟩ := bind_eq_ok.1 h
        cases h
    | call f argc =>
      simp only [execute, call] at h
      split at h
      · cases h
      · cases f with
        | builtin f => obtain ⟨⟨v, angle⟩, hv, h⟩ := bind_eq_ok.1 h; cases h
        | user name =>
          dsimp only [callUser] at h
          split at h
          · cases h
          · split at h
            · cases h
            · split at h
              · cases h
              · obtain ⟨k, hk, h⟩ := bind_eq_ok.1 h
                cases h
    | «return» o =>
      have hleave : ∀ v, leave m v ≠ .ok (.await dest ty) := by
        intro v hv
        unfold leave at hv
        split at hv
        · cases hv
        · split at hv <;> cases hv
      cases o with
      | none => exact absurd h (hleave none)
      | some o =>
        obtain ⟨v, hv, h⟩ := bind_eq_ok.1 h
        exact absurd h (hleave (some v))
    | _ => cases he

/-- The addresses to which calls that have not returned go back, the innermost first. -/
def returns (m : Machine) : List Nat := m.calls.map (·.returnAddress)

theorem returns_modifyFrame (m : Machine) {f : Frame → Frame}
    (hf : ∀ x, (f x).returnAddress = x.returnAddress) : (m.modifyFrame f).returns = m.returns := by
  unfold modifyFrame returns
  split <;> simp_all

@[simp] theorem returns_noted (m : Machine) (line : Nat) : (m.noted line).returns = m.returns :=
  returns_modifyFrame { m with executed := m.executed + 1 } fun _ => rfl

@[simp] theorem returns_write (m : Machine) (p : Place) (v : Value) :
    (m.write p v).returns = m.returns := by
  rcases p with t | ⟨slot, storage⟩
  · exact returns_modifyFrame m fun _ => rfl
  · cases storage with
    | global => rfl
    | «local» => exact returns_modifyFrame m fun _ => rfl

end Machine

open Machine

namespace Image

/-- How a run goes on when the machine has executed an operation. -/
def follow (image : Image) (m : Machine) (unread : List String) :
    Except Fault Flow → Advance
  | .ok (.go m') => .next ⟨m', unread⟩
  | .ok .halt => .done ⟨.halted .finished, m.output, [], unread⟩
  | .error f => .done (image.faultOutcome m f unread)
  | .ok (.await dest ty) =>
    match unread with
    | [] => .done (image.cancelOutcome m)
    | line :: rest =>
      match Value.ofInput line ty with
      | .ok v => .next ⟨(m.write dest v).next, rest⟩
      | .error f => .done (image.faultOutcome m f rest)

variable {image : Image}

theorem advance_of_none {p : Point} (h : image.instrs[p.machine.pc]? = none) :
    image.advance p = .done ⟨.halted .finished, p.machine.output, [], p.unread⟩ := by
  simp [advance, step, h]

theorem advance_of_label {p : Point} {i : Instr} (h : image.instrs[p.machine.pc]? = some i)
    (hl : i.op.label?.isSome) : image.advance p = .next ⟨p.machine.next, p.unread⟩ := by
  simp [advance, step, h, hl]

theorem advance_of_within {p : Point} {i : Instr}
    (ho : overLimit image.settings { p.machine with executed := p.machine.executed + 1 } = none)
    (h : image.instrs[p.machine.pc]? = some i) (hl : i.op.label? = none) :
    image.advance p =
      image.follow (p.machine.noted i.line) p.unread
        (execute image (p.machine.noted i.line) i.op) := by
  have hp : p.machine.step image = perform image p.machine i := by
    simp [step, h, hl]
  rw [advance, hp, perform]
  dsimp only
  rw [ho]
  dsimp only
  rw [← noted]
  rcases execute image (p.machine.noted i.line) i.op with f | (m | - | ⟨dest, ty⟩) <;> rfl

theorem advance_of_op {p : Point} {i : Instr} (hs : image.settings.maxSteps = none)
    (h : image.instrs[p.machine.pc]? = some i) (hl : i.op.label? = none) :
    image.advance p =
      image.follow (p.machine.noted i.line) p.unread
        (execute image (p.machine.noted i.line) i.op) :=
  advance_of_within (by simp [overLimit, hs]) h hl

/-- A run that goes on has executed no more instructions than it may. -/
theorem within_of_next {p q : Point} {i : Instr} (h : image.advance p = .next q)
    (hi : image.instrs[p.machine.pc]? = some i) (hl : i.op.label? = none) :
    overLimit image.settings { p.machine with executed := p.machine.executed + 1 } = none := by
  have hp : p.machine.step image = perform image p.machine i := by
    simp [step, hi, hl]
  rw [Option.eq_none_iff_forall_ne_some]
  intro limit ho
  rw [advance, hp, perform] at h
  dsimp only at h
  rw [ho] at h
  cases h

/-- A run goes on past a label, after an operation, or after reading a line. -/
theorem advance_eq_next {p q : Point} (h : image.advance p = .next q) :
    ∃ i, image.instrs[p.machine.pc]? = some i ∧
      ((i.op.label?.isSome ∧ q = ⟨p.machine.next, p.unread⟩) ∨
      (∃ m, Goes image (p.machine.noted i.line) i.op m ∧ q = ⟨m, p.unread⟩) ∨
      ∃ dest ty line rest v, i.op = .input dest ty ∧ p.unread = line :: rest ∧
        Value.ofInput line ty = .ok v ∧
        q = ⟨((p.machine.noted i.line).write dest v).next, rest⟩) := by
  cases hi : image.instrs[p.machine.pc]? with
  | none => rw [advance_of_none hi] at h; cases h
  | some i =>
    refine ⟨i, rfl, ?_⟩
    cases hl : i.op.label? with
    | some l =>
      rw [advance_of_label hi (by rw [hl]; rfl)] at h
      cases h
      exact .inl ⟨rfl, rfl⟩
    | none =>
      rw [advance_of_within (within_of_next h hi hl) hi hl] at h
      rcases he : execute image (p.machine.noted i.line) i.op with f | (m | - | ⟨dest, ty⟩)
      · rw [he] at h; cases h
      · rw [he] at h
        cases h
        exact .inr (.inl ⟨m, goes_of_execute he, rfl⟩)
      · rw [he] at h; cases h
      · rw [he] at h
        unfold follow at h
        dsimp only at h
        cases hu : p.unread with
        | nil => rw [hu] at h; cases h
        | cons line rest =>
          rw [hu] at h
          dsimp only at h
          cases hv : Value.ofInput line ty with
          | error f => rw [hv] at h; cases h
          | ok v =>
            rw [hv] at h
            cases h
            exact .inr (.inr ⟨dest, ty, line, rest, v, eq_input_of_await he, rfl, hv, rfl⟩)

/-- A run goes on with the next instruction, at a label, or where a call was.  And a call is
the only instruction to which it goes back. -/
theorem control_of_advance {p q : Point} (h : image.advance p = .next q) :
    ∃ i, image.instrs[p.machine.pc]? = some i ∧
      (q.machine.pc = p.machine.pc + 1 ∧ i.op.endsBlock = false ∨
        (∃ l, image.position l = .ok q.machine.pc) ∨ q.machine.pc ∈ p.machine.returns) ∧
      ∀ r ∈ q.machine.returns, r ∈ p.machine.returns ∨
        r = p.machine.pc + 1 ∧ ∃ f argc, i.op = .call f argc := by
  obtain ⟨i, hi, ⟨hl, rfl⟩ | ⟨m, hgo, rfl⟩ | ⟨d, ty, line, rest, v, hop, -, hv, rfl⟩⟩ :=
    advance_eq_next h
  · refine ⟨i, hi, .inl ⟨rfl, ?_⟩, fun r hr => .inl hr⟩
    cases hop : i.op <;> rw [hop] at hl <;> first | rfl | cases hl
  · refine ⟨i, hi, ?_⟩
    dsimp only
    rw [← pc_noted p.machine i.line, ← returns_noted p.machine i.line]
    generalize i.op = op at hgo
    generalize p.machine.noted i.line = n at hgo
    cases hgo with
    | @write op d v he =>
      have hb : op.endsBlock = false := by
        cases op <;> first | rfl | cases he
      refine ⟨.inl ⟨by simp [Machine.next], hb⟩, fun r hr => .inl ?_⟩
      rw [← returns_write n d v]
      exact hr
    | label => exact ⟨.inl ⟨rfl, rfl⟩, fun r hr => .inl hr⟩
    | jump hk => exact ⟨.inr (.inl ⟨_, hk⟩), fun r hr => .inl hr⟩
    | pass => exact ⟨.inl ⟨rfl, rfl⟩, fun r hr => .inl hr⟩
    | branch _ hk => exact ⟨.inr (.inl ⟨_, hk⟩), fun r hr => .inl hr⟩
    | param => exact ⟨.inl ⟨rfl, rfl⟩, fun r hr => .inl hr⟩
    | print => exact ⟨.inl ⟨rfl, rfl⟩, fun r hr => .inl hr⟩
    | builtin => exact ⟨.inl ⟨rfl, rfl⟩, fun r hr => .inl hr⟩
    | user _ _ _ _ hk =>
      refine ⟨.inr (.inl ⟨_, hk⟩), fun r hr => ?_⟩
      rcases List.mem_cons.1 hr with rfl | hr
      · exact .inr ⟨rfl, _, _, rfl⟩
      · exact .inl hr
    | leave _ hc _ =>
      refine ⟨.inr (.inr ?_), fun r hr => .inl ?_⟩
      · rw [returns, hc]
        exact List.mem_cons_self ..
      · rw [returns, hc]
        exact List.mem_cons_of_mem _ hr
  · refine ⟨i, hi, .inl ⟨by simp [Machine.next], by rw [hop]; rfl⟩, fun r hr => .inl ?_⟩
    rw [← returns_noted p.machine i.line, ← returns_write (p.machine.noted i.line) d v]
    exact hr

/-- A set of positions to which all jumps go, and which goes on after every instruction after
which control may go on, is not left. -/
theorem lands_of_advance {K : Nat → Prop}
    (hlabel : ∀ l k, image.position l = .ok k → K k)
    (hnext : ∀ k i, image.instrs[k]? = some i → K k → i.op.endsBlock = false → K (k + 1))
    {p q : Point} (hp : K p.machine.pc ∧ ∀ r ∈ p.machine.returns, K r)
    (h : image.advance p = .next q) : K q.machine.pc ∧ ∀ r ∈ q.machine.returns, K r := by
  obtain ⟨i, hi, hpc, hret⟩ := control_of_advance h
  constructor
  · rcases hpc with ⟨hpc, hb⟩ | ⟨l, hl⟩ | hr
    · rw [hpc]
      exact hnext _ i hi hp.1 hb
    · exact hlabel l _ hl
    · exact hp.2 _ hr
  · intro r hr
    rcases hret r hr with hr | ⟨rfl, f, argc, hop⟩
    · exact hp.2 r hr
    · exact hnext _ i hi hp.1 (by rw [hop]; rfl)

end Image

end NumericScript
