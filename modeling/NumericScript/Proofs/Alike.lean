import Mathlib.Data.List.Forall2
import NumericScript.Optimize.Pass
import NumericScript.Proofs.Step

/-! # Machines that run rearranged code

When code is rearranged, positions move and some temporaries lose their meaning.  Two machines
are alike if they differ in nothing else.

* `Machine.Alike.execute`: machines that are alike execute an operation alike, unless it reads
  a temporary without meaning.
* `Machine.Alike.advance`: and so they go on alike. -/

namespace NumericScript

section

variable (place : Nat → Nat) (dead : Nat → Prop)

/-- Frames that agree except for temporaries without meaning, the positions having moved. -/
structure Frame.Alike (f g : Frame) : Prop where
  function : g.function = f.function
  locals : g.locals = f.locals
  temps : ∀ t, ¬ dead t → g.temps.get? t = f.temps.get? t
  returnAddress : g.returnAddress = place f.returnAddress
  returnsValue : g.returnsValue = f.returnsValue

/-- Machines that agree except for temporaries without meaning and for where they are, the
positions having moved. -/
structure Machine.Alike (a b : Machine) : Prop where
  globals : b.globals = a.globals
  main : Frame.Alike place dead a.main b.main
  calls : List.Forall₂ (Frame.Alike place dead) a.calls b.calls
  args : b.args = a.args
  returned : b.returned = a.returned
  angle : b.angle = a.angle
  output : b.output = a.output

/-- Machines that are alike and at the same place. -/
def Machine.Together (a b : Machine) : Prop := Machine.Alike place dead a b ∧ b.pc = place a.pc

end

/-- Ways to go on that lead to related machines or to the same end. -/
inductive Machine.Flow.Alike (R : Machine → Machine → Prop) :
    Except Fault Machine.Flow → Except Fault Machine.Flow → Prop where
  | go {a b : Machine} (h : R a b) : Flow.Alike R (.ok (.go a)) (.ok (.go b))
  | halt : Flow.Alike R (.ok .halt) (.ok .halt)
  | await {dest : Place} {ty : Ty} :
      Flow.Alike R (.ok (.await dest ty)) (.ok (.await dest ty))
  | error {f : Fault} : Flow.Alike R (.error f) (.error f)

/-- Steps of runs that lead to related machines or to the same end. -/
inductive Advance.Alike (R : Machine → Machine → Prop) : Advance → Advance → Prop where
  | next {a b : Machine} {unread : List String} (h : R a b) :
      Advance.Alike R (.next ⟨a, unread⟩) (.next ⟨b, unread⟩)
  | done {o : RunOutcome} : Advance.Alike R (.done o) (.done o)

theorem Machine.Flow.Alike.bind {α : Type} {R : Machine → Machine → Prop}
    (x : Except Fault α) {f g : α → Except Fault Machine.Flow}
    (h : ∀ v, x = .ok v → Flow.Alike R (f v) (g v)) : Flow.Alike R (x >>= f) (x >>= g) := by
  cases x with
  | error e => exact .error
  | ok v => exact h v rfl

/-- A label stands in both pieces of code, at places that correspond. -/
def Resolves (A B : Image) (place : Nat → Nat) (l : Label) : Prop :=
  ∃ k, A.position l = .ok k ∧ B.position l = .ok (place k)

/-- The code in `B` is that in `A` rearranged, as far as calls and limits are concerned. -/
structure Relocates (A B : Image) (place : Nat → Nat) : Prop where
  functions : B.functions = A.functions
  settings : B.settings = A.settings
  entries : ∀ name f, A.functions.get? name = some f → Resolves A B place f.label

namespace Machine.Alike

variable {place : Nat → Nat} {dead : Nat → Prop} {a b : Machine}

theorem frame (h : Alike place dead a b) : Frame.Alike place dead a.frame b.frame := by
  have hc := h.calls
  unfold Machine.frame
  cases ha : a.calls with
  | nil =>
    rw [ha] at hc
    cases hb : b.calls with
    | nil => exact h.main
    | cons g gs => rw [hb] at hc; cases hc
  | cons f fs =>
    rw [ha] at hc
    cases hb : b.calls with
    | nil => rw [hb] at hc; cases hc
    | cons g gs =>
      rw [hb] at hc
      cases hc with
      | cons hf _ => exact hf

theorem modifyFrame (h : Alike place dead a b) (f g : Frame → Frame)
    (hfg : ∀ x y, Frame.Alike place dead x y → Frame.Alike place dead (f x) (g y)) :
    Alike place dead (a.modifyFrame f) (b.modifyFrame g) := by
  have hc := h.calls
  unfold Machine.modifyFrame
  cases ha : a.calls with
  | nil =>
    rw [ha] at hc
    cases hb : b.calls with
    | nil =>
      exact ⟨h.globals, hfg _ _ h.main, .nil, h.args,
        h.returned, h.angle, h.output⟩
    | cons g gs => rw [hb] at hc; cases hc
  | cons x xs =>
    rw [ha] at hc
    cases hb : b.calls with
    | nil => rw [hb] at hc; cases hc
    | cons y ys =>
      rw [hb] at hc
      cases hc with
      | cons hxy hxys =>
        exact ⟨h.globals, h.main, .cons (hfg _ _ hxy) hxys, h.args, h.returned, h.angle,
          h.output⟩

theorem noted (h : Alike place dead a b) (line line' : Nat) :
    Alike place dead (a.noted line) (b.noted line') := by
  unfold Machine.noted
  refine modifyFrame (⟨h.globals, h.main, h.calls, h.args, h.returned, h.angle, h.output⟩ :
    Alike place dead { a with executed := a.executed + 1 }
      { b with executed := b.executed + 1 }) _ _ fun x y hxy => ?_
  exact ⟨hxy.function, hxy.locals, hxy.temps, hxy.returnAddress, hxy.returnsValue⟩

theorem write (h : Alike place dead a b) (p : Place) (v : Value) :
    Alike place dead (a.write p v) (b.write p v) := by
  rcases p with t | ⟨slot, storage⟩
  · unfold Machine.write
    refine h.modifyFrame _ _ fun x y hxy => ⟨hxy.function, hxy.locals, fun t' ht => ?_,
      hxy.returnAddress, hxy.returnsValue⟩
    dsimp only
    rw [Store.get?_set, Store.get?_set, hxy.temps t' ht]
  · cases storage with
    | global =>
      exact ⟨congrArg (Store.set · slot v) h.globals, h.main, h.calls, h.args, h.returned,
        h.angle, h.output⟩
    | «local» =>
      unfold Machine.write
      exact h.modifyFrame _ _ fun x y hxy => ⟨hxy.function,
        congrArg (Store.set · slot v) hxy.locals, hxy.temps, hxy.returnAddress,
        hxy.returnsValue⟩

/-- A temporary without meaning can be written on one side alone. -/
theorem write_dead (h : Alike place dead a b) {t : Nat} (ht : dead t) (v : Value) :
    Alike place dead (a.write (.temp t) v) b := by
  have hb : b.modifyFrame id = b := by
    rcases b with ⟨pc, executed, globals, main, calls, args, returned, angle, output⟩
    cases calls <;> rfl
  rw [← hb]
  unfold Machine.write
  refine h.modifyFrame _ _ fun x y hxy => ⟨hxy.function, hxy.locals, fun t' ht' => ?_,
    hxy.returnAddress, hxy.returnsValue⟩
  dsimp only [id]
  have hne : t ≠ t' := fun e => ht' (e ▸ ht)
  rw [Store.get?_set_of_ne _ _ hne, hxy.temps t' ht']

theorem read? (h : Alike place dead a b) {p : Place} (hp : ∀ t, p = .temp t → ¬ dead t) :
    b.read? p = a.read? p := by
  rcases p with t | ⟨slot, storage⟩
  · exact h.frame.temps t (hp t rfl)
  · cases storage with
    | global => exact congrArg (Store.get? · slot) h.globals
    | «local» => exact congrArg (Store.get? · slot) h.frame.locals

theorem read (h : Alike place dead a b) {p : Place} (hp : ∀ t, p = .temp t → ¬ dead t) :
    b.read p = a.read p := by
  rw [Machine.read, Machine.read, h.read? hp]

theorem eval (h : Alike place dead a b) {o : Operand}
    (ho : ∀ t, Op.operandTemp? o = some t → ¬ dead t) : b.eval o = a.eval o := by
  cases o with
  | place p => exact h.read fun t ht => ho t (by rw [ht]; rfl)
  | const c => rfl
  | returned => rw [Machine.eval, Machine.eval, h.returned]

theorem evalInt (h : Alike place dead a b) {o : Operand}
    (ho : ∀ t, Op.operandTemp? o = some t → ¬ dead t) : b.evalInt o = a.evalInt o := by
  rw [Machine.evalInt, Machine.evalInt, h.eval ho]

theorem evalIndex (h : Alike place dead a b) {o : Option Operand}
    (ho : ∀ o' ∈ o, ∀ t, Op.operandTemp? o' = some t → ¬ dead t) :
    b.evalIndex o = a.evalIndex o := by
  cases o with
  | none => rfl
  | some o => rw [Machine.evalIndex, Machine.evalIndex, h.evalInt (ho o rfl)]

/-- The line of an instruction can be noted on one side alone. -/
theorem noted_left (h : Alike place dead a b) (line : Nat) :
    Alike place dead (a.noted line) b := by
  have h' := h.noted line 0
  have hf : ∀ f, Frame.Alike place dead f { b.frame with line := some 0 } →
      Frame.Alike place dead f b.frame :=
    fun f hf => ⟨hf.function, hf.locals, hf.temps, hf.returnAddress, hf.returnsValue⟩
  rcases b with ⟨pc, executed, globals, main, calls, args, returned, angle, output⟩
  cases calls with
  | nil => exact ⟨h'.globals, hf _ h'.main, h'.calls, h'.args, h'.returned, h'.angle, h'.output⟩
  | cons g gs =>
    refine ⟨h'.globals, h'.main, ?_, h'.args, h'.returned, h'.angle, h'.output⟩
    have hc : List.Forall₂ (Frame.Alike place dead) (a.noted line).calls
      ({ g with line := some 0 } :: gs) := h'.calls
    generalize (a.noted line).calls = fs at hc
    cases hc with
    | cons hg hgs => exact .cons (hf _ hg) hgs

theorem next (h : Alike place dead a b) : Alike place dead a.next b.next :=
  ⟨h.globals, h.main, h.calls, h.args, h.returned, h.angle, h.output⟩

theorem next_right (h : Alike place dead a b) : Alike place dead a b.next :=
  ⟨h.globals, h.main, h.calls, h.args, h.returned, h.angle, h.output⟩

theorem next_left (h : Alike place dead a b) : Alike place dead a.next b :=
  ⟨h.globals, h.main, h.calls, h.args, h.returned, h.angle, h.output⟩

theorem mem_tempsRead {op : Op} {o : Operand} {t : Nat} (ho : o ∈ op.operands)
    (ht : Op.operandTemp? o = some t) : t ∈ op.tempsRead := by
  unfold Op.tempsRead
  exact List.mem_append_right _ (List.mem_filterMap.2 ⟨o, ho, ht⟩)

/-- Machines that are alike give a place the same value. -/
theorem effect (h : Alike place dead a b) {op : Op} (hop : ∀ t ∈ op.tempsRead, ¬ dead t) :
    b.effect op = a.effect op := by
  have ho : ∀ o ∈ op.operands, ∀ t, Op.operandTemp? o = some t → ¬ dead t :=
    fun o ho t ht => hop t (mem_tempsRead ho ht)
  cases op with
  | copy d s => simp only [Machine.effect]; rw [h.eval (ho s (by simp [Op.operands]))]
  | binary d op l r =>
    simp only [Machine.effect]
    rw [h.eval (ho l (by simp [Op.operands])), h.eval (ho r (by simp [Op.operands]))]
  | unary d f o => simp only [Machine.effect]; rw [h.eval (ho o (by simp [Op.operands]))]
  | load d base row col =>
    simp only [Machine.effect]
    rw [h.eval (ho base (by simp [Op.operands])), h.evalInt (ho row (by simp [Op.operands])),
      h.evalIndex fun o' ho' => ho o' (by simp_all [Op.operands])]
  | store base row col o =>
    simp only [Machine.effect]
    rw [h.eval (ho o (by simp [Op.operands])), h.evalInt (ho row (by simp [Op.operands])),
      h.evalIndex fun o' ho' => ho o' (by simp_all [Op.operands]),
      h.read fun t ht => hop t (by simp [Op.tempsRead, ht])]
  | _ => rfl

variable {A B : Image}

theorem callUser (h : Alike place dead a b) (hAB : Relocates A B place)
    (hpc : b.pc + 1 = place (a.pc + 1)) (name : String) (args : List Value) :
    Flow.Alike (Together place dead) (Machine.callUser A a name args)
      (Machine.callUser B b name args) := by
  unfold Machine.callUser
  rw [hAB.functions]
  cases hf : A.functions.get? name with
  | none => exact .error
  | some f =>
    simp only [hAB.settings, h.calls.length_eq]
    split
    · exact .error
    · split
      · exact .error
      · obtain ⟨k, hk, hk'⟩ := hAB.entries name f hf
        rw [hk, hk']
        refine .go ⟨⟨h.globals, h.main, .cons ⟨rfl, rfl, fun t _ => rfl, hpc, rfl⟩ h.calls,
          h.args, rfl, h.angle, h.output⟩, rfl⟩

theorem call (h : Alike place dead a b) (hAB : Relocates A B place)
    (hpc : b.pc + 1 = place (a.pc + 1)) (callee : Callee) (argc : Nat) :
    Flow.Alike (Together place dead) (Machine.call A a callee argc)
      (Machine.call B b callee argc) := by
  unfold Machine.call
  rw [h.args]
  split
  · exact .error
  · cases callee with
    | builtin f =>
      dsimp only [Machine.callBuiltin]
      rw [h.angle]
      refine .bind _ fun v _ => .go ⟨?_, hpc⟩
      exact ⟨h.globals, h.main, h.calls, rfl, rfl, rfl, h.output⟩
    | user name =>
      have h' : Alike place dead { a with args := a.args.drop argc }
          { b with args := a.args.drop argc } :=
        ⟨h.globals, h.main, h.calls, rfl, h.returned, h.angle, h.output⟩
      exact h'.callUser hAB hpc name _

theorem leave (h : Alike place dead a b) (v : Option Value) :
    Flow.Alike (Together place dead) (Machine.leave a v) (Machine.leave b v) := by
  have hc := h.calls
  unfold Machine.leave
  cases ha : a.calls with
  | nil =>
    rw [ha] at hc
    cases hb : b.calls with
    | nil => exact .halt
    | cons g gs => rw [hb] at hc; cases hc
  | cons f fs =>
    rw [ha] at hc
    cases hb : b.calls with
    | nil => rw [hb] at hc; cases hc
    | cons g gs =>
      rw [hb] at hc
      cases hc with
      | cons hf hfs =>
        dsimp only
        rw [hf.returnsValue, hf.function]
        split
        · exact .error
        · exact .go ⟨⟨h.globals, h.main, hfs, h.args, rfl, h.angle, h.output⟩,
            hf.returnAddress⟩

/-- Machines that are alike execute an operation alike, unless it reads a temporary without
meaning. -/
theorem execute (h : Alike place dead a b) (hAB : Relocates A B place) {op : Op}
    (hpc : b.pc + 1 = place (a.pc + 1)) (hop : ∀ t ∈ op.tempsRead, ¬ dead t)
    (hjump : ∀ l, op.target? = some l → Resolves A B place l) :
    Flow.Alike (Together place dead) (Machine.execute A a op) (Machine.execute B b op) := by
  have ho : ∀ o ∈ op.operands, ∀ t, Op.operandTemp? o = some t → ¬ dead t :=
    fun o ho t ht => hop t (mem_tempsRead ho ht)
  cases he : a.effect op with
  | some p =>
    obtain ⟨d, x⟩ := p
    rw [execute_of_effect he, execute_of_effect ((h.effect hop).trans he)]
    exact .bind x fun v _ => .go ⟨(h.write d v).next, by simpa [Machine.next] using hpc⟩
  | none =>
    cases op with
    | label l => exact .go ⟨h.next, hpc⟩
    | jump l =>
      obtain ⟨k, hk, hk'⟩ := hjump l rfl
      simp only [Machine.execute]
      rw [hk, hk']
      exact .go ⟨⟨h.globals, h.main, h.calls, h.args, h.returned, h.angle, h.output⟩, rfl⟩
    | jumpIfFalse c l =>
      obtain ⟨k, hk, hk'⟩ := hjump l rfl
      simp only [Machine.execute]
      rw [h.eval (ho c (by simp [Op.operands])), hk, hk']
      refine .bind _ fun v _ => .bind _ fun t _ => ?_
      cases t with
      | true => exact .go ⟨h.next, hpc⟩
      | false =>
        exact .go ⟨⟨h.globals, h.main, h.calls, h.args, h.returned, h.angle, h.output⟩, rfl⟩
    | param o =>
      simp only [Machine.execute]
      rw [h.eval (ho o (by simp [Op.operands])), h.args]
      refine .bind _ fun v _ => .go ⟨?_, hpc⟩
      exact ⟨h.globals, h.main, h.calls, rfl, h.returned, h.angle, h.output⟩
    | call f argc => exact h.call hAB hpc f argc
    | «return» o =>
      cases o with
      | none => exact h.leave none
      | some o =>
        simp only [Machine.execute]
        rw [h.eval (ho o (by simp [Op.operands]))]
        exact .bind _ fun v _ => h.leave (some v)
    | print o newline =>
      simp only [Machine.execute]
      rw [h.eval (ho o (by simp [Op.operands])), h.output]
      refine .bind _ fun v _ => .go ⟨?_, hpc⟩
      exact ⟨h.globals, h.main, h.calls, h.args, h.returned, h.angle, rfl⟩
    | input d ty => exact .await
    | halt => exact .halt
    | _ => cases he

/-- Runs go on alike after operations that were executed alike. -/
theorem follow (h : Alike place dead a b) (hpc : b.pc + 1 = place (a.pc + 1))
    (hline : B.line? b.pc = A.line? a.pc) (unread : List String)
    {x y : Except Fault Flow} (hxy : Flow.Alike (Together place dead) x y) :
    Advance.Alike (Together place dead) (A.follow a unread x) (B.follow b unread y) := by
  have hfault : ∀ f rest, B.faultOutcome b f rest = A.faultOutcome a f rest := by
    intro f rest
    rw [Image.faultOutcome, Image.faultOutcome, h.output, hline]
  cases hxy with
  | go h => exact .next h
  | halt => rw [Image.follow, Image.follow, h.output]; exact .done
  | error => rw [Image.follow, Image.follow, hfault]; exact .done
  | @await dest ty =>
    cases unread with
    | nil =>
      rw [Image.follow, Image.follow, Image.cancelOutcome, Image.cancelOutcome, h.output, hline]
      exact .done
    | cons line rest =>
      simp only [Image.follow]
      cases Value.ofInput line ty with
      | ok v =>
        exact .next ⟨(h.write dest v).next, by simpa [Machine.next] using hpc⟩
      | error f => dsimp only; rw [hfault]; exact .done

end Machine.Alike

end NumericScript
