import NumericScript.Proofs.Session.Frames

/-! # Instructions in place

The machine gives what comes of an instruction, or a fault, and after a fault it is as before.  An
instruction that changes the machine piece by piece could fault when it has done a part of its work.
Here instructions work in that way, each change in its turn, and a fault leaves what was done
before.

* `InPlace`: work on a machine that a fault does not undo.
* `InPlace.perform`: an instruction in place.
* `InPlace.perform_eq`: it does what the machine does, and what a fault leaves is the machine
  without some of the arguments that were waiting. -/

namespace NumericScript

/-- Work on a machine, in which what was done before a fault is not undone. -/
abbrev InPlace := ExceptT Fault (StateM Machine)

namespace InPlace

open Machine

variable {α β : Type} {image : Image} {m : Machine}

/-- What comes of some work, and the machine after it. -/
def outcome (x : InPlace α) (m : Machine) : Except Fault α × Machine := x m

/-- Asks the machine for something without changing it. -/
def consult (g : Machine → Except Fault α) : InPlace α := ExceptT.mk fun m => (g m, m)

/-- How the position changes when the work of an operation is done. -/
inductive Move where
  | next
  | jump (k : Nat)
  | halt
  | await (dest : Place) (ty : Ty)

/-- How it goes on with a machine on which the work is done. -/
def Move.flow (m : Machine) : Move → Flow
  | next => .go m.next
  | jump k => .go { m with pc := k }
  | halt => .halt
  | await dest ty => .await dest ty

/-- Whether the machine goes on. -/
def Move.goesOn : Move → Bool
  | next | jump _ => true
  | halt | await _ _ => false

/-- What a step leads to when the work is done. -/
def Move.follow (m : Machine) : Move → Machine.Outcome
  | next => .running m.next
  | jump k => .running { m with pc := k }
  | halt => .finished m
  | await dest ty => .awaiting m dest ty

/-! ### Operations -/

/-- Gives a place a value and goes on. -/
def write (dest : Place) (v : Value) : InPlace Move := do
  modify fun m => m.write dest v
  return .next

/-- Calls a builtin.  The unit of angles changes before the result is there. -/
def callBuiltin (f : Builtin) (args : List Value) : InPlace Move := do
  let (v, angle) ← consult fun m => f.call args m.angle
  modify fun m => { m with angle := angle }
  modify fun m => { m with returned := some v }
  return .next

/-- Calls a function of the program. -/
def callUser (image : Image) (name : String) (args : List Value) : InPlace Move := do
  match image.functions.get? name with
  | none => throw (.undefinedFunction name)
  | some f =>
    if f.params.length ≠ args.length then
      throw (.arityMismatch name f.params.length args.length)
    if image.settings.maxCallDepth ≤ (← get).calls.length then
      throw (.stackDepthExceeded image.settings.maxCallDepth)
    let entry ← consult fun _ => image.position f.label
    modify fun m => { m with calls := callFrame f args (m.pc + 1) :: m.calls }
    modify fun m => { m with returned := none }
    return .jump entry

/-- Calls with the last `argc` arguments, which are taken away first. -/
def call (image : Image) (callee : Callee) (argc : Nat) : InPlace Move := do
  let args := (← get).args
  if args.length < argc then throw (.arityMismatch callee.name argc args.length)
  modify fun m => { m with args := args.drop argc }
  match callee with
  | .builtin f => callBuiltin f (args.take argc).reverse
  | .user name => callUser image name (args.take argc).reverse

/-- Returns from the innermost call.  At top level, that ends the program. -/
def leave (v : Option Value) : InPlace Move := do
  match (← get).calls with
  | [] => return .halt
  | f :: fs =>
    if f.returnsValue && v.isNone then throw (.missingReturn f.function)
    modify fun m => { m with calls := fs }
    modify fun m => { m with returned := v }
    return .jump f.returnAddress

/-- Carries out an operation in place. -/
def execute (image : Image) : Op → InPlace Move
  | .assign d c => write d c.toValue
  | .copy d src => do
    let v ← consult fun m => m.eval src
    write d v
  | .binary d op l r => do
    let a ← consult fun m => m.eval l
    let b ← consult fun m => m.eval r
    let v ← consult fun _ => op.apply a b
    write d v
  | .unary d f o => do
    let a ← consult fun m => m.eval o
    let v ← consult fun _ => f.apply a
    write d v
  | .label _ => return .next
  | .jump l => do
    let k ← consult fun _ => image.position l
    return .jump k
  | .jumpIfFalse c l => do
    let v ← consult fun m => m.eval c
    let b ← consult fun _ => v.asBool
    if b then return .next
    let k ← consult fun _ => image.position l
    return .jump k
  | .param o => do
    let v ← consult fun m => m.eval o
    modify fun m => { m with args := v :: m.args }
    return .next
  | .call callee argc => call image callee argc
  | .return none => leave none
  | .return (some o) => do
    let v ← consult fun m => m.eval o
    leave (some v)
  | .print o newline => do
    let v ← consult fun m => m.eval o
    modify fun m => { m with output := m.output ++ v.text }
    modify fun m => { m with output := m.output ++ separator newline }
    return .next
  | .input d ty => return .await d ty
  | .newArray d len => write d (.array (List.replicate len .void))
  | .newMatrix d rows cols => write d (.matrix (.zeros rows cols))
  | .load d base row col => do
    let i ← consult fun m => m.evalInt row
    let j ← consult fun m => m.evalIndex col
    let b ← consult fun m => m.eval base
    let v ← consult fun _ => b.loadIndex i j
    write d v
  | .store base row col o => do
    let i ← consult fun m => m.evalInt row
    let j ← consult fun m => m.evalIndex col
    let v ← consult fun m => m.eval o
    let b ← consult fun m => m.read base
    let b ← consult fun _ => b.storeIndex i j v
    write base b
  | .halt => return .halt

/-- Executes an instruction that is no label in place: it is counted, then its line is noted, then
it acts. -/
def perform (image : Image) (i : Instr) : InPlace Move := do
  modify fun m => { m with executed := m.executed + 1 }
  if let some limit := overLimit image.settings (← get) then throw (.stepLimitExceeded limit)
  modify fun m => m.modifyFrame fun f => { f with line := some i.line }
  execute image i.op

/-! ### What is done in place -/

theorem outcome_get_bind (k : Machine → InPlace β) :
    ((get : InPlace Machine) >>= k).outcome m = (k m).outcome m := rfl

theorem outcome_modify_bind (g : Machine → Machine) (k : PUnit → InPlace β) :
    ((modify g : InPlace PUnit) >>= k).outcome m = (k ⟨⟩).outcome (g m) := rfl

theorem outcome_consult_bind_of_ok {g : Machine → Except Fault α} {a : α} (h : g m = .ok a)
    (k : α → InPlace β) : (consult g >>= k).outcome m = (k a).outcome m := by
  change ExceptT.bindCont k (g m) m = _
  rw [h]
  rfl

theorem outcome_consult_bind_of_error {g : Machine → Except Fault α} {f : Fault}
    (h : g m = .error f) (k : α → InPlace β) : (consult g >>= k).outcome m = (.error f, m) := by
  change ExceptT.bindCont k (g m) m = _
  rw [h]
  rfl

/-- The machine `m` is `m₀` without some of the arguments that were waiting. -/
def Spent (m₀ m : Machine) : Prop := ∃ k, m = { m₀ with args := m₀.args.drop k }

theorem Spent.refl (m : Machine) : Spent m m := ⟨0, rfl⟩

/-- The machine says of an operation what comes of the work in place, which began with `m₀`.  It is
still `m₀` where the machine does not go on, and after a fault it is `m₀` without some arguments. -/
def Agrees (m₀ : Machine) (x : Except Fault Flow) (y : Except Fault Move × Machine) : Prop :=
  match y with
  | (.ok move, m') => x = .ok (move.flow m') ∧ (move.goesOn = false → m' = m₀)
  | (.error f, m') => x = .error f ∧ Spent m₀ m'

namespace Agrees

variable {m₀ : Machine}

theorem consult (hm : Spent m₀ m) {g : Machine → Except Fault α} {h : α → Except Fault Flow}
    {k : α → InPlace Move} (hk : ∀ a, Agrees m₀ (h a) ((k a).outcome m)) :
    Agrees m₀ (g m >>= h) ((InPlace.consult g >>= k).outcome m) := by
  cases hg : g m with
  | ok a =>
    rw [outcome_consult_bind_of_ok hg]
    exact hk a
  | error f =>
    rw [outcome_consult_bind_of_error hg]
    exact ⟨rfl, hm⟩

/-- The same before anything is changed. -/
theorem asks {g : Machine → Except Fault α} {h : α → Except Fault Flow} {k : α → InPlace Move}
    (hk : ∀ a, Agrees m (h a) ((k a).outcome m)) :
    Agrees m (g m >>= h) ((InPlace.consult g >>= k).outcome m) :=
  consult (.refl m) hk

theorem write (d : Place) (v : Value) :
    Agrees m₀ (.ok (Flow.write m d v)) ((InPlace.write d v).outcome m) := ⟨rfl, nofun⟩

theorem leave (v : Option Value) :
    Agrees m (Machine.leave m v) ((InPlace.leave v).outcome m) := by
  unfold Machine.leave InPlace.leave
  rw [outcome_get_bind]
  cases m.calls with
  | nil => exact ⟨rfl, fun _ => rfl⟩
  | cons f fs =>
    dsimp only
    split
    · exact ⟨rfl, .refl m⟩
    · exact ⟨rfl, nofun⟩

theorem callBuiltin (hm : Spent m₀ m) (f : Builtin) (args : List Value) :
    Agrees m₀ (Machine.callBuiltin m f args) ((InPlace.callBuiltin f args).outcome m) :=
  consult hm fun _ => ⟨rfl, nofun⟩

theorem callUser (hm : Spent m₀ m) (name : String) (args : List Value) :
    Agrees m₀ (Machine.callUser image m name args)
      ((InPlace.callUser image name args).outcome m) := by
  unfold Machine.callUser InPlace.callUser
  cases image.functions.get? name with
  | none => exact ⟨rfl, hm⟩
  | some f =>
    dsimp only
    split
    · exact ⟨rfl, hm⟩
    · rw [outcome_get_bind]
      split
      · exact ⟨rfl, hm⟩
      · exact consult hm fun _ => ⟨rfl, nofun⟩

/-- A call that faults may have taken its arguments. -/
theorem call (callee : Callee) (argc : Nat) :
    Agrees m (Machine.call image m callee argc) ((InPlace.call image callee argc).outcome m) := by
  unfold Machine.call InPlace.call
  rw [outcome_get_bind]
  dsimp only
  split
  · exact ⟨rfl, .refl m⟩
  · cases callee with
    | builtin f => exact callBuiltin ⟨argc, rfl⟩ f _
    | user name => exact callUser ⟨argc, rfl⟩ name _

/-- An operation does in place what the machine says. -/
theorem execute (op : Op) :
    Agrees m (Machine.execute image m op) ((InPlace.execute image op).outcome m) := by
  cases op with
  | assign d c => exact write d _
  | copy d src => exact asks fun v => write d v
  | binary d op l r => exact asks fun a => asks fun b => asks fun v => write d v
  | unary d f o => exact asks fun a => asks fun v => write d v
  | label l => exact ⟨rfl, nofun⟩
  | jump l => exact asks fun k => ⟨rfl, nofun⟩
  | jumpIfFalse c l =>
    refine asks fun v => asks fun b => ?_
    cases b with
    | true => exact ⟨rfl, nofun⟩
    | false => exact asks fun k => ⟨rfl, nofun⟩
  | param o => exact asks fun v => ⟨rfl, nofun⟩
  | call callee argc => exact call callee argc
  | «return» o =>
    cases o with
    | none => exact leave none
    | some o => exact asks fun v => leave (some v)
  | print o newline => exact asks fun v => ⟨rfl, nofun⟩
  | input d ty => exact ⟨rfl, fun _ => rfl⟩
  | newArray d len => exact write d _
  | newMatrix d rows cols => exact write d _
  | load d base row col =>
    exact asks fun i => asks fun j => asks fun b => asks fun v => write d v
  | store base row col o =>
    exact asks fun i => asks fun j => asks fun v => asks fun b => asks fun b => write base b
  | halt => exact ⟨rfl, fun _ => rfl⟩

end Agrees

theorem outcome_perform (image : Image) (m : Machine) (i : Instr) :
    (perform image i).outcome m =
      match overLimit image.settings { m with executed := m.executed + 1 } with
      | some limit => (.error (.stepLimitExceeded limit), { m with executed := m.executed + 1 })
      | none => (execute image i.op).outcome (m.noted i.line) := by
  unfold perform
  rw [outcome_modify_bind, outcome_get_bind]
  cases overLimit image.settings { m with executed := m.executed + 1 } <;> rfl

/-- An instruction does in place what the machine says. -/
theorem perform_eq (image : Image) (m : Machine) (i : Instr) :
    Machine.perform image m i =
      match (perform image i).outcome m with
      | (.ok move, m') => move.follow m'
      | (.error f, m') => .faulted { m' with args := m.args } f := by
  rw [outcome_perform]
  unfold Machine.perform
  dsimp only
  cases overLimit image.settings { m with executed := m.executed + 1 } with
  | some limit => rfl
  | none =>
    have hagrees : Agrees (m.noted i.line) (Machine.execute image (m.noted i.line) i.op)
      ((execute image i.op).outcome (m.noted i.line)) := .execute i.op
    dsimp only
    rw [← noted]
    generalize (execute image i.op).outcome (m.noted i.line) = y at hagrees ⊢
    rcases y with ⟨f | move, m'⟩
    · obtain ⟨hx, k, rfl⟩ := hagrees
      rw [hx, ← args_noted m i.line]
    · obtain ⟨hx, hstays⟩ := hagrees
      rw [hx]
      cases move with
      | next | jump k => rfl
      | halt | await dest ty => rw [hstays rfl]; rfl

/-- What a fault leaves is the machine that has counted the instruction, or has noted its line too,
without some of the arguments that were waiting. -/
theorem eq_of_error {i : Instr} {f : Fault} {m' : Machine}
    (h : (perform image i).outcome m = (.error f, m')) :
    m' = { m with executed := m.executed + 1 } ∨ Spent (m.noted i.line) m' := by
  rw [outcome_perform] at h
  split at h
  · cases h
    exact .inl rfl
  · have hagrees : Agrees (m.noted i.line) (Machine.execute image (m.noted i.line) i.op)
      ((execute image i.op).outcome (m.noted i.line)) := .execute i.op
    rw [h] at hagrees
    exact .inr hagrees.2

end InPlace

end NumericScript
