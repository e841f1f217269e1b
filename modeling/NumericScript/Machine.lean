import NumericScript.Code.Listing
import NumericScript.Settings
import NumericScript.Store

/-! # The state of the machine

What instructions act on: the position in the code, global variables, a frame for the code at
top level and one for every call that has not returned, the arguments of the next call, what
the last call gave, and the text printed so far.

* `Machine.read?_write`: what is written is read, and no other place changes. -/

namespace NumericScript

/-- What a call keeps of its own. -/
structure Frame where
  function : String
  /-- The line of the function. -/
  entryLine : Nat
  /-- The line of the instruction last executed in the frame. -/
  line : Option Nat
  locals : Store String Value
  temps : Store Nat Value
  /-- Where the machine goes on after the call. -/
  returnAddress : Nat
  returnsValue : Bool

/-- The state of the machine. -/
structure Machine where
  pc : Nat
  /-- How many instructions were executed.  Labels do not count. -/
  executed : Nat
  globals : Store String Value
  /-- The frame of the code at top level. -/
  main : Frame
  /-- The frames of the calls that have not returned, the innermost first. -/
  calls : List Frame
  /-- The arguments for the next call, the last first. -/
  args : List Value
  /-- What the last call gave. -/
  returned : Option Value
  angle : AngleMode
  output : String

/-- The name of the frame of the code at top level. -/
def Frame.mainName : String := "<main>"

namespace Machine

/-- The state in which code starts whose first instruction is in line `entryLine`. -/
def start (entryLine : Nat) (angle : AngleMode) : Machine where
  pc := 0
  executed := 0
  globals := []
  main := ⟨Frame.mainName, entryLine, none, [], [], 0, false⟩
  calls := []
  args := []
  returned := none
  angle := angle
  output := ""

/-- How many frames there are. -/
def depth (m : Machine) : Nat := m.calls.length + 1

/-- The innermost frame. -/
def frame (m : Machine) : Frame := m.calls.headD m.main

/-- Changes the innermost frame. -/
def modifyFrame (m : Machine) (f : Frame → Frame) : Machine :=
  match m.calls with
  | [] => { m with main := f m.main }
  | fr :: frs => { m with calls := f fr :: frs }

/-- Goes on with the next instruction. -/
def next (m : Machine) : Machine := { m with pc := m.pc + 1 }

/-! ### Places -/

/-- What a place holds, if it holds anything. -/
def read? (m : Machine) : Place → Option Value
  | .temp t => m.frame.temps.get? t
  | .var ⟨slot, .global⟩ => m.globals.get? slot
  | .var ⟨slot, .local⟩ => m.frame.locals.get? slot

/-- Puts a value into a place. -/
def write (m : Machine) (p : Place) (v : Value) : Machine :=
  match p with
  | .temp t => m.modifyFrame fun f => { f with temps := f.temps.set t v }
  | .var ⟨slot, .global⟩ => { m with globals := m.globals.set slot v }
  | .var ⟨slot, .local⟩ => m.modifyFrame fun f => { f with locals := f.locals.set slot v }

/-- What a place holds. -/
def read (m : Machine) (p : Place) : Except Fault Value :=
  match m.read? p with
  | some v => .ok v
  | none => .error (.undefinedVariable p.text)

/-- The value of an operand. -/
def eval (m : Machine) : Operand → Except Fault Value
  | .place p => m.read p
  | .const c => .ok c.toValue
  | .returned =>
    match m.returned with
    | some v => .ok v
    | none => .error (.unexpectedValue .returnValue .void)

/-- The whole number that an operand is. -/
def evalInt (m : Machine) (o : Operand) : Except Fault Int64 := do
  (← m.eval o).asInt

/-- The whole number that an operand is, if there is one. -/
def evalIndex (m : Machine) : Option Operand → Except Fault (Option Int64)
  | none => .ok none
  | some o => some <$> m.evalInt o

@[simp] theorem frame_modifyFrame (m : Machine) (f : Frame → Frame) :
    (m.modifyFrame f).frame = f m.frame := by
  unfold modifyFrame frame
  split <;> simp [*]

@[simp] theorem globals_modifyFrame (m : Machine) (f : Frame → Frame) :
    (m.modifyFrame f).globals = m.globals := by
  unfold modifyFrame
  split <;> rfl

@[simp] theorem depth_modifyFrame (m : Machine) (f : Frame → Frame) :
    (m.modifyFrame f).depth = m.depth := by
  unfold modifyFrame depth
  split <;> simp [*]

theorem read?_write (m : Machine) (p q : Place) (v : Value) :
    (m.write p v).read? q = if p = q then some v else m.read? q := by
  rcases p with t | ⟨slot, storage⟩
  · rcases q with t' | ⟨slot', storage'⟩
    · simp [write, read?, Store.get?_set]
    · cases storage' <;> simp [write, read?]
  · cases storage
    · rcases q with t' | ⟨slot', storage'⟩
      · simp [write, read?, frame]
      · cases storage' <;> simp [write, read?, frame, Store.get?_set]
    · rcases q with t' | ⟨slot', storage'⟩
      · simp [write, read?]
      · cases storage' <;> simp [write, read?, Store.get?_set]

end Machine

end NumericScript
