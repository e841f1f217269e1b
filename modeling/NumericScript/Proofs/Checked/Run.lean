import NumericScript.Proofs.Checked.Operation
import NumericScript.Proofs.Optimize.Compiled

/-! # Runs, step by step

The machine with every step of its operations checked.  Matrices come into being with as many
entries as their shapes say, and nothing that the machine does changes that.  So wherever a run
comes, all steps of the operation at hand are defined, unless it is a call of the least common
multiple for numbers whose quotient does not fit.

* `Machine.Sound`: all values in a machine are sound, and they stay so.
* `Machine.execute?_agrees`: operations are defined in such machines.
* `compile_checked`: so are the steps of runs of what compiles, and such a call is the only reason
  for which they are aborted. -/

namespace NumericScript

open Machine (Goes bind_eq_ok)

/-! ### Checked steps -/

namespace Machine

/-- Calls with the last `argc` arguments. -/
def call? (image : Image) (m : Machine) (callee : Callee) (argc : Nat) : Checked Flow :=
  if m.args.length < argc then throw (.arityMismatch callee.name argc m.args.length)
  else
    let args := (m.args.take argc).reverse
    let m := { m with args := m.args.drop argc }
    match callee with
    | .builtin f => do
      let (v, angle) ← f.call? args m.angle
      return .go { m.next with returned := some v, angle := angle }
    | .user name => callUser image m name args

/-- Carries out an operation. -/
def execute? (image : Image) (m : Machine) : Op → Checked Flow
  | .binary d op l r => do
    let a ← m.eval l
    let b ← m.eval r
    let v ← op.value? a b
    return .write m d v
  | .unary d f o => do
    let a ← m.eval o
    let v ← f.value? a
    return .write m d v
  | .load d base row col => do
    let i ← m.evalInt row
    let j ← m.evalIndex col
    let b ← m.eval base
    let v ← b.loadIndex? i j
    return .write m d v
  | .store base row col o => do
    let i ← m.evalInt row
    let j ← m.evalIndex col
    let v ← m.eval o
    let b ← m.read base
    let b ← b.storeIndex? i j v
    return .write m base b
  | .print o newline => do
    let v ← m.eval o
    let text ← v.text?
    return .go { m.next with output := m.output ++ text ++ separator newline }
  | .call f argc => call? image m f argc
  | op => execute image m op

/-- What an operation that was carried out leads to. -/
def Outcome.ofFlow (m : Machine) : Except Fault Flow → Outcome
  | .ok (.go m) => .running m
  | .ok .halt => .finished m
  | .ok (.await dest ty) => .awaiting m dest ty
  | .error f => .faulted m f

/-- Executes an instruction that is no label. -/
def perform? (image : Image) (m : Machine) (i : Instr) : Option Outcome :=
  let m := { m with executed := m.executed + 1 }
  match overLimit image.settings m with
  | some limit => some (.faulted m (.stepLimitExceeded limit))
  | none =>
    let m := m.modifyFrame fun f => { f with line := some i.line }
    (execute? image m i.op).run.map (Outcome.ofFlow m)

/-- Executes the instruction at the present position. -/
def step? (image : Image) (m : Machine) : Option Outcome :=
  match image.instrs[m.pc]? with
  | none => some (.finished m)
  | some i => if i.op.label?.isSome then some (.running m.next) else perform? image m i

end Machine

namespace Image

/-- How a run goes on after a step of the machine. -/
def proceed (image : Image) (unread : List String) : Machine.Outcome → Advance
  | .running m => .next ⟨m, unread⟩
  | .finished m => .done ⟨.halted .finished, m.output, [], unread⟩
  | .faulted m f => .done (image.faultOutcome m f unread)
  | .awaiting m dest ty =>
    match unread with
    | [] => .done (image.cancelOutcome m)
    | line :: rest =>
      match Value.ofInput line ty with
      | .ok v => .next ⟨(m.write dest v).next, rest⟩
      | .error f => .done (image.faultOutcome m f rest)

/-- A step of a run, if all steps of the operation at hand are defined. -/
def advance? (image : Image) (p : Point) : Option Advance :=
  (p.machine.step? image).map (image.proceed p.unread)

/-- The instruction at hand may be executed, and calls the least common multiple for numbers whose
quotient does not fit. -/
def OverflowsAt (image : Image) (p : Point) : Prop :=
  ∃ i, image.instrs[p.machine.pc]? = some i ∧
    Machine.overLimit image.settings { p.machine with executed := p.machine.executed + 1 } = none ∧
    p.machine.Overflows i.op

end Image

/-! ### Sound machines -/

/-- All values in a frame are sound. -/
structure Frame.Sound (f : Frame) : Prop where
  locals : ∀ x v, f.locals.get? x = some v → v.Sound
  temps : ∀ t v, f.temps.get? t = some v → v.Sound

/-- All values in a machine are sound. -/
structure Machine.Sound (m : Machine) : Prop where
  globals : ∀ x v, m.globals.get? x = some v → v.Sound
  main : m.main.Sound
  calls : ∀ f ∈ m.calls, f.Sound
  args : ∀ v ∈ m.args, v.Sound
  returned : ∀ v, m.returned = some v → v.Sound

theorem Value.sound_toValue (c : Constant) : c.toValue.Sound := by
  cases c <;> exact trivial

namespace Machine.Sound

variable {image : Image} {m m' : Machine}

theorem start (line : Nat) (angle : AngleMode) : Sound (.start line angle) where
  globals := nofun
  main := ⟨nofun, nofun⟩
  calls := nofun
  args := nofun
  returned := nofun

theorem frame (h : m.Sound) : m.frame.Sound := by
  unfold Machine.frame
  cases hc : m.calls with
  | nil => exact h.main
  | cons f fs => exact h.calls f (by rw [hc]; exact List.mem_cons_self)

theorem modifyFrame (h : m.Sound) {g : Frame → Frame} (hg : ∀ f : Frame, f.Sound → (g f).Sound) :
    (m.modifyFrame g).Sound := by
  unfold Machine.modifyFrame
  split
  · exact ⟨h.globals, hg _ h.main, h.calls, h.args, h.returned⟩
  · rename_i f fs hc
    refine ⟨h.globals, h.main, fun f' hf' => ?_, h.args, h.returned⟩
    rcases List.mem_cons.1 hf' with rfl | hf'
    · exact hg _ (h.calls f (by rw [hc]; exact List.mem_cons_self))
    · exact h.calls f' (by rw [hc]; exact List.mem_cons_of_mem _ hf')

theorem noted (h : m.Sound) (line : Nat) : (m.noted line).Sound :=
  modifyFrame (m := { m with executed := m.executed + 1 })
    ⟨h.globals, h.main, h.calls, h.args, h.returned⟩ fun _ hf => ⟨hf.locals, hf.temps⟩

theorem next (h : m.Sound) : m.next.Sound := ⟨h.globals, h.main, h.calls, h.args, h.returned⟩

theorem write (h : m.Sound) (d : Place) {v : Value} (hv : v.Sound) : (m.write d v).Sound := by
  rcases d with t | ⟨slot, storage⟩
  · exact h.modifyFrame (g := fun f => { f with temps := f.temps.set t v })
      fun f hf => ⟨hf.locals, Store.forall_get?_set hf.temps hv⟩
  · cases storage with
    | global => exact ⟨Store.forall_get?_set h.globals hv, h.main, h.calls, h.args, h.returned⟩
    | «local» =>
      exact h.modifyFrame (g := fun f => { f with locals := f.locals.set slot v })
        fun f hf => ⟨Store.forall_get?_set hf.locals hv, hf.temps⟩

theorem read? (h : m.Sound) {d : Place} {v : Value} (hd : m.read? d = some v) : v.Sound := by
  rcases d with t | ⟨slot, storage⟩
  · exact h.frame.temps t v hd
  · cases storage with
    | global => exact h.globals slot v hd
    | «local» => exact h.frame.locals slot v hd

theorem read (h : m.Sound) {d : Place} {v : Value} (hd : m.read d = .ok v) : v.Sound := by
  unfold Machine.read at hd
  split at hd <;> cases hd
  exact h.read? ‹_›

theorem eval (h : m.Sound) {o : Operand} {v : Value} (ho : m.eval o = .ok v) : v.Sound := by
  cases o with
  | place p => exact h.read ho
  | const c =>
    cases ho
    exact Value.sound_toValue c
  | returned =>
    unfold Machine.eval at ho
    dsimp only at ho
    split at ho <;> cases ho
    exact h.returned _ ‹_›

/-- What an operation gives a place is sound. -/
theorem effect (h : m.Sound) {op : Op} {d : Place} {x : Except Fault Value}
    (he : m.effect op = some (d, x)) : GivesSound x := by
  cases op <;>
    simp only [Machine.effect, Option.some.injEq, Prod.mk.injEq, reduceCtorEq] at he <;>
    obtain ⟨-, rfl⟩ := he
  case assign d c => exact .ok (Value.sound_toValue c)
  case copy d s => exact fun v hv => h.eval hv
  case newArray d n =>
    refine .ok (Value.allSound_iff.2 fun v hv => ?_)
    rw [(List.mem_replicate.1 hv).2]
    trivial
  case newMatrix d rows cols => exact .ok (Matrix.ofFn_wellFormed _ _ _)
  case binary d op l r =>
    exact .bind fun a ha => .bind fun b hb => .apply op (h.eval ha) (h.eval hb)
  case unary d f o => exact .bind fun a _ => .applyUnary f a
  case load d base row col =>
    exact .bind fun i _ => .bind fun j _ => .bind fun b hb => .loadIndex (h.eval hb) i j
  case store base row col o =>
    exact .bind fun i _ => .bind fun j _ => .bind fun v hv => .bind fun b hb =>
      .storeIndex (h.read hb) (h.eval hv) i j

theorem callFrame (f : FunctionInfo) {args : List Value} (h : ∀ v ∈ args, v.Sound)
    (address : Nat) : (Machine.callFrame f args address).Sound where
  locals :=
    Store.forall_get?_foldl_set (P := fun _ v => Value.Sound v) (s := []) nofun
      fun p hp => h p.2 (List.of_mem_zip hp).2
  temps := nofun

/-- Operations keep machines sound. -/
theorem goes (h : m.Sound) {op : Op} (hgo : Goes image m op m') : m'.Sound := by
  have hdrop : ∀ argc, ∀ v ∈ m.args.drop argc, v.Sound := fun argc v hv =>
    h.args v (List.mem_of_mem_drop hv)
  have htake : ∀ argc, ∀ v ∈ (m.args.take argc).reverse, v.Sound := fun argc v hv =>
    h.args v (List.mem_of_mem_take (List.mem_reverse.1 hv))
  cases hgo with
  | @write op d v he => exact (h.write d (h.effect he v rfl)).next
  | label | pass => exact h.next
  | jump | branch => exact ⟨h.globals, h.main, h.calls, h.args, h.returned⟩
  | param ho =>
    refine ⟨h.globals, h.main, h.calls, fun v hv => ?_, h.returned⟩
    rcases List.mem_cons.1 hv with rfl | hv
    · exact h.eval ho
    · exact h.args v hv
  | builtin hlen hcall =>
    refine ⟨h.globals, h.main, h.calls, hdrop _, ?_⟩
    rintro _ ⟨⟩
    exact GivesSound.call hcall
  | @user name argc k f =>
    refine ⟨h.globals, h.main, fun g hg => ?_, hdrop _, nofun⟩
    rcases List.mem_cons.1 hg with rfl | hg
    · exact callFrame f (htake argc) _
    · exact h.calls g hg
  | @leave o v f fs ho hc =>
    refine ⟨h.globals, h.main, fun g hg => h.calls g ?_, h.args, fun w hw => ?_⟩
    · rw [hc]
      exact List.mem_cons_of_mem _ hg
    · cases o with
      | none =>
        cases ho
        cases hw
      | some o =>
        cases hu : m.eval o with
        | error f =>
          rw [Machine.givesBack, hu] at ho
          cases ho
        | ok u =>
          rw [Machine.givesBack, hu] at ho
          cases ho
          cases hw
          exact h.eval hu
  | print => exact ⟨h.globals, h.main, h.calls, h.args, h.returned⟩

/-- And so do the steps of a run. -/
theorem advance {p q : Point} (h : p.machine.Sound) (hadv : image.advance p = .next q) :
    q.machine.Sound := by
  obtain ⟨i, -, ⟨-, rfl⟩ | ⟨m, hgo, rfl⟩ | ⟨d, ty, line, rest, v, -, -, hv, rfl⟩⟩ :=
    Image.advance_eq_next hadv
  · exact h.next
  · exact (h.noted i.line).goes hgo
  · exact ((h.noted i.line).write d (GivesSound.ofInput line ty v hv)).next

/-- Wherever a run comes, the machine is sound. -/
theorem reaches {lines : List String} {q : Point}
    (hq : image.Reaches (image.startPoint lines) q) : q.machine.Sound := by
  induction hq with
  | refl => exact .start _ _
  | tail _ hadv ih => exact ih.advance hadv

end Machine.Sound

/-! ### Defined steps -/

namespace Machine

variable {image : Image} {m : Machine} {op : Op}

theorem call?_agrees (h : m.Sound) {callee : Callee} {argc : Nat}
    (hover : ¬ m.Overflows (.call callee argc)) :
    Agrees (call? image m callee argc) (call image m callee argc) := by
  refine .ite (fun _ => .error _) fun hlen => ?_
  cases callee with
  | user name => exact .lift _
  | builtin f =>
    refine (Builtin.call?_agrees (fun ho => hover ?_) (fun v hv => ?_) m.angle).bind
      fun _ _ => .ok _
    · exact ⟨f, argc, rfl, Nat.le_of_not_lt hlen, ho⟩
    · exact h.args v (List.mem_of_mem_take (List.mem_reverse.1 hv))

/-- In sound machines operations are defined, unless a number does not fit. -/
theorem execute?_agrees (h : m.Sound) (hover : ¬ m.Overflows op) :
    Agrees (execute? image m op) (execute image m op) := by
  cases op
  case binary d op l r =>
    exact (Agrees.lift _).bind fun a ha => (Agrees.lift _).bind fun b hb =>
      (BinaryOp.value?_agrees op (h.eval ha) (h.eval hb)).bind fun _ _ => .ok _
  case unary d f o =>
    exact (Agrees.lift _).bind fun a ha =>
      (UnaryFn.value?_agrees f (h.eval ha)).bind fun _ _ => .ok _
  case load d base row col =>
    exact (Agrees.lift _).bind fun i _ => (Agrees.lift _).bind fun j _ =>
      (Agrees.lift _).bind fun b hb =>
        (Value.loadIndex?_agrees (h.eval hb) i j).bind fun _ _ => .ok _
  case store base row col o =>
    exact (Agrees.lift _).bind fun i _ => (Agrees.lift _).bind fun j _ =>
      (Agrees.lift _).bind fun v _ => (Agrees.lift _).bind fun b hb =>
        (Value.storeIndex?_agrees (h.read hb) i j v).bind fun _ _ => .ok _
  case print o newline =>
    exact (Agrees.lift _).bind fun v hv => .step (v.text?_eq (h.eval hv)) (.ok _)
  case call callee argc => exact call?_agrees h hover
  all_goals exact .lift _

/-- And then they are not. -/
theorem execute?_of_overflows (h : m.Overflows op) : execute? image m op = none := by
  obtain ⟨f, argc, rfl, hlen, ho⟩ := h
  simp only [execute?, call?, if_neg (Nat.not_lt_of_le hlen), Builtin.call?_of_overflows ho]
  rfl

@[simp] theorem overflows_noted (line : Nat) : (m.noted line).Overflows op ↔ m.Overflows op := by
  simp [Overflows, noted]

end Machine

namespace Image

variable {image : Image} {q : Point}

/-- In a sound machine a step of a run is defined, unless a number does not fit. -/
theorem advance?_eq (h : q.machine.Sound) (hover : ¬ image.OverflowsAt q) :
    image.advance? q = some (image.advance q) := by
  suffices hstep : q.machine.step? image = some (q.machine.step image) by
    rw [advance?, hstep]
    rfl
  unfold Machine.step? Machine.step
  cases hi : image.instrs[q.machine.pc]? with
  | none => rfl
  | some i =>
    dsimp only
    split
    · rfl
    unfold Machine.perform? Machine.perform
    dsimp only
    cases hlimit : Machine.overLimit image.settings
        { q.machine with executed := q.machine.executed + 1 } with
    | some limit => rfl
    | none =>
      dsimp only
      rw [← Machine.noted]
      have hagrees : Agrees (Machine.execute? image (q.machine.noted i.line) i.op) _ :=
        Machine.execute?_agrees (h.noted i.line) fun ho =>
          hover ⟨i, hi, hlimit, (Machine.overflows_noted i.line).1 ho⟩
      rw [show ExceptT.run _ = some _ from hagrees]
      rcases Machine.execute image (q.machine.noted i.line) i.op with
        f | (m | - | ⟨dest, ty⟩) <;> rfl

/-- And then it is not. -/
theorem advance?_eq_none (h : image.OverflowsAt q) : image.advance? q = none := by
  obtain ⟨i, hi, hlimit, ho⟩ := h
  have hlabel : i.op.label? = none := by
    obtain ⟨f, argc, hop, -⟩ := ho
    rw [hop]
    rfl
  simp only [advance?, Machine.step?, hi, hlabel, Machine.perform?, hlimit]
  rw [← Machine.noted, Machine.execute?_of_overflows ((Machine.overflows_noted i.line).2 ho)]
  rfl

theorem status_faultOutcome {m : Machine} {f : Fault} {unread : List String} :
    (image.faultOutcome m f unread).status = .halted .aborted ↔ f = .overflow := by
  unfold faultOutcome
  split <;> simp_all

theorem follow_eq_done {m : Machine} {unread : List String} {x : Except Fault Machine.Flow}
    {o : RunOutcome} (h : image.follow m unread x = .done o) :
    o.status = .halted .aborted ↔ x = .error .overflow := by
  rcases x with f | (m' | - | ⟨dest, ty⟩)
  · cases h
    simpa using status_faultOutcome
  · cases h
  · cases h
    simp
  · rcases unread with _ | ⟨line, rest⟩
    · cases h
      simp [cancelOutcome]
    · cases hv : Value.ofInput line ty with
      | ok v =>
        simp only [follow, hv] at h
        cases h
      | error f =>
        simp only [follow, hv] at h
        cases h
        have hne : f ≠ .overflow := fun hf => (OfValues.ofInput line ty).ne_overflow (hf ▸ hv)
        simpa using fun hf => hne (status_faultOutcome.1 hf)

/-- A run is aborted by a step that is not defined, and by no other. -/
theorem aborted_iff_of_done {o : RunOutcome} (h : image.advance q = .done o) :
    o.status = .halted .aborted ↔ image.OverflowsAt q := by
  cases hi : image.instrs[q.machine.pc]? with
  | none =>
    rw [advance_of_none hi] at h
    cases h
    simp [OverflowsAt, hi]
  | some i =>
    cases hl : i.op.label? with
    | some l => rw [advance_of_label hi (by rw [hl]; rfl)] at h; cases h
    | none =>
      cases hlimit : Machine.overLimit image.settings
          { q.machine with executed := q.machine.executed + 1 } with
      | some limit =>
        have hstep : q.machine.step image = .faulted
            { q.machine with executed := q.machine.executed + 1 } (.stepLimitExceeded limit) := by
          simp [Machine.step, hi, hl, Machine.perform, hlimit]
        rw [advance, hstep] at h
        cases h
        rw [status_faultOutcome]
        simp [OverflowsAt, hlimit]
      | none =>
        rw [advance_of_within hlimit hi hl] at h
        rw [follow_eq_done h, Machine.execute_eq_overflow, Machine.overflows_noted]
        constructor
        · exact fun ho => ⟨i, hi, hlimit, ho⟩
        · rintro ⟨j, hj, -, ho⟩
          rw [hi] at hj
          cases hj
          exact ho

/-- No run goes on after a step that is not defined. -/
theorem exists_done_of_overflowsAt (h : image.OverflowsAt q) :
    ∃ o, image.advance q = .done o := by
  obtain ⟨i, hi, hlimit, ho⟩ := h
  have hlabel : i.op.label? = none := by
    obtain ⟨f, argc, hop, -⟩ := ho
    rw [hop]
    rfl
  rw [advance_of_within hlimit hi hlabel,
    Machine.execute_eq_overflow.2 ((Machine.overflows_noted i.line).2 ho)]
  exact ⟨_, rfl⟩

theorem Halts.exists_reaches {p : Point} {o : RunOutcome} (h : image.Halts p o) :
    ∃ q, image.Reaches p q ∧ image.advance q = .done o := by
  induction h with
  | done h => exact ⟨_, .refl, h⟩
  | next h _ ih =>
    obtain ⟨q, hq, ho⟩ := ih
    exact ⟨q, hq.head h, ho⟩

/-- A run is aborted if and only if it comes to a step that is not defined. -/
theorem Halts.aborted_iff {p : Point} {o : RunOutcome} (h : image.Halts p o) :
    o.status = .halted .aborted ↔ ∃ q, image.Reaches p q ∧ image.OverflowsAt q := by
  constructor
  · intro ho
    obtain ⟨q, hq, hdone⟩ := h.exists_reaches
    exact ⟨q, hq, (aborted_iff_of_done hdone).1 ho⟩
  · rintro ⟨q, hq, hover⟩
    obtain ⟨o', hdone⟩ := exists_done_of_overflowsAt hover
    obtain rfl := h.unique (.of_reaches hq (.done hdone))
    exact (aborted_iff_of_done hdone).2 hover

end Image

/-! ### Compiled programs -/

/-- Raw and optimized code of what compiles are fit for the machine, whatever its settings.
Wherever a run of them comes, the step at hand is defined, unless it calls the least common multiple
for the smallest whole number when the quotient does not fit; and just those calls abort a run. -/
theorem compile_checked (source : String) (settings : Settings) (machine : MachineSettings)
    (hs : (compile source settings).succeeded = true) :
    ∃ raw optimized, (compile source settings).code = some raw ∧
      (compile source settings).optimized = some optimized ∧
      ∀ c, c = raw ∨ c = optimized → ∃ image, Image.ofCode c machine = .ok image ∧ ∀ lines,
        (∀ q, image.Reaches (image.startPoint lines) q →
          (¬ image.OverflowsAt q → image.advance? q = some (image.advance q)) ∧
          (image.OverflowsAt q → image.advance? q = none)) ∧
        ∀ fuel o, c.run machine fuel lines = some o →
          (o.status = .halted .aborted ↔
            ∃ q, image.Reaches (image.startPoint lines) q ∧ image.OverflowsAt q) := by
  obtain ⟨p, raw, hp, hl, hraw, hoptimized, -⟩ := exists_of_succeeded hs
  refine ⟨raw, _, hraw, hoptimized, fun c hc => ?_⟩
  have hlinked : Linked c.functions c.instrs := by
    rcases hc with rfl | rfl
    · exact hp.linked hl
    · exact Code.linked_optimized settings (ProgramTyped.label_eq hl) (hp.linked hl)
  have himage : Image.ofCode c machine = .ok (c.link machine) :=
    Code.ofCode_eq_ok_iff.2 ⟨hlinked, rfl⟩
  refine ⟨c.link machine, himage, fun lines => ⟨fun q hq => ⟨?_, ?_⟩, fun fuel o ho => ?_⟩⟩
  · exact Image.advance?_eq (.reaches hq)
  · exact Image.advance?_eq_none
  · exact ((Code.run_iff_halts hlinked).1 ⟨fuel, ho⟩).aborted_iff

/-- All steps are defined when the least common multiple is that of small numbers. -/
theorem compile_checked_lcm :
    ∃ raw, (compile "print lcm(4, 6)" {}).code = some raw ∧
      (raw.run {} 9 []).map (·.output) = some "12\n" ∧
      ∃ image, Image.ofCode raw {} = .ok image ∧
        ∀ q, image.Reaches (image.startPoint []) q → image.advance? q = some (image.advance q) := by
  have hs : (compile "print lcm(4, 6)" {}).succeeded = true := by decide +kernel
  have houtput : ((compile "print lcm(4, 6)" {}).code.bind fun c =>
      (c.run {} 9 []).map fun o => (o.output, o.status)) =
        some ("12\n", .halted .finished) := by decide +kernel
  obtain ⟨raw, optimized, hraw, -, hchecked⟩ := compile_checked "print lcm(4, 6)" {} {} hs
  obtain ⟨image, himage, hchecked⟩ := hchecked raw (.inl rfl)
  obtain ⟨hsteps, haborted⟩ := hchecked []
  rw [hraw] at houtput
  obtain ⟨o, ho, hresult⟩ := Option.map_eq_some_iff.1 houtput
  rw [Prod.mk.injEq] at hresult
  refine ⟨raw, hraw, ?_, image, himage, fun q hq => (hsteps q hq).1 fun hover => ?_⟩
  · rw [ho, Option.map_some, hresult.1]
  · have := (haborted 9 o ho).2 ⟨q, hq, hover⟩
    rw [hresult.2] at this
    cases this

/-- The least common multiple of the smallest whole number and seven is not defined: the greatest
common divisor has come out as minus one, and the quotient by it does not fit. -/
theorem not_compile_checked_lcm : ¬ ∀ source settings machine c image,
    (compile source settings).succeeded = true →
    (compile source settings).code = some c ∨ (compile source settings).optimized = some c →
    Image.ofCode c machine = .ok image →
    ∀ lines q, image.Reaches (image.startPoint lines) q →
      image.advance? q = some (image.advance q) := by
  intro h
  let source := "print lcm(-9223372036854775807 - 1, 7)\n"
  have hs : (compile source {}).succeeded = true := by decide +kernel
  have hstatus : ((compile source {}).code.bind fun c => (c.run {} 9 []).map (·.status)) =
      some (.halted .aborted) := by decide +kernel
  obtain ⟨p, raw, hp, hl, hraw, -⟩ := exists_of_succeeded hs
  rw [hraw] at hstatus
  obtain ⟨o, ho, haborted⟩ := Option.map_eq_some_iff.1 hstatus
  have hlinked := hp.linked hl
  obtain ⟨q, hq, hover⟩ := ((Code.run_iff_halts hlinked).1 ⟨9, ho⟩).aborted_iff.1 haborted
  have hdefined := h source {} {} raw _ hs (.inl hraw) (Code.ofCode_eq_ok_iff.2 ⟨hlinked, rfl⟩)
    [] q hq
  rw [Image.advance?_eq_none hover] at hdefined
  cases hdefined

end NumericScript
