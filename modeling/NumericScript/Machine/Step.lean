import NumericScript.Builtin.Call
import NumericScript.Code.Labels
import NumericScript.Machine
import NumericScript.Value.Element

/-! # Steps of the machine

`Image` is code made ready to run.  `step` executes one instruction of it.  An instruction
that faults leaves variables, frames and output as they are. -/

namespace NumericScript

/-- Code made ready to run. -/
structure Image where
  instrs : Array Instr
  functions : Store String FunctionInfo
  labels : Labels
  settings : MachineSettings

namespace Image

/-- Makes code ready to run.  Of functions of one name the last counts. -/
def ofCode (c : Code) (settings : MachineSettings) : Except CodeError Image := do
  let labels ← c.labels
  let functions : Store String FunctionInfo :=
    c.functions.foldl (fun s f => s.set f.name f) []
  pure ⟨c.instrs.toArray, functions, labels, settings⟩

/-- The line of the instruction at a position. -/
def line? (image : Image) (pc : Nat) : Option Nat := (image.instrs[pc]?).map (·.line)

/-- The state in which code starts. -/
def start (image : Image) : Machine :=
  .start ((image.line? 0).getD 0) image.settings.angleMode

/-- The position of a label. -/
def position (image : Image) (l : Label) : Except Fault Nat :=
  match image.labels.get? l with
  | some k => .ok k
  | none => .error (.unknownLabel l.text)

end Image

namespace Machine

/-- How it goes on after an operation. -/
inductive Flow where
  | go (m : Machine)
  | halt
  /-- A value of type `ty` is needed for `dest`. -/
  | await (dest : Place) (ty : Ty)

/-- Goes on after writing a value. -/
def Flow.write (m : Machine) (dest : Place) (v : Value) : Flow := .go (m.write dest v).next

/-! ### Calls -/

/-- The frame of a call of `f`. -/
def callFrame (f : FunctionInfo) (args : List Value) (returnAddress : Nat) : Frame where
  function := f.name
  entryLine := f.line
  line := none
  locals := (f.params.zip args).foldl (fun s p => s.set p.1.slot p.2) []
  temps := []
  returnAddress := returnAddress
  returnsValue := f.returnsValue

/-- Calls a function of the program. -/
def callUser (image : Image) (m : Machine) (name : String) (args : List Value) :
    Except Fault Flow := do
  match image.functions.get? name with
  | none => throw (.undefinedFunction name)
  | some f =>
    if f.params.length ≠ args.length then
      throw (.arityMismatch name f.params.length args.length)
    if image.settings.maxCallDepth ≤ m.calls.length then
      throw (.stackDepthExceeded image.settings.maxCallDepth)
    let entry ← image.position f.label
    let frame := callFrame f args (m.pc + 1)
    return .go { m with pc := entry, calls := frame :: m.calls, returned := none }

/-- Calls a builtin. -/
def callBuiltin (m : Machine) (f : Builtin) (args : List Value) : Except Fault Flow := do
  let (v, angle) ← f.call args m.angle
  return .go { m.next with returned := some v, angle := angle }

/-- Calls with the last `argc` arguments. -/
def call (image : Image) (m : Machine) (callee : Callee) (argc : Nat) : Except Fault Flow :=
  if m.args.length < argc then .error (.arityMismatch callee.name argc m.args.length)
  else
    let args := (m.args.take argc).reverse
    let m := { m with args := m.args.drop argc }
    match callee with
    | .builtin f => callBuiltin m f args
    | .user name => callUser image m name args

/-- Returns from the innermost call.  At top level, that ends the program. -/
def leave (m : Machine) (v : Option Value) : Except Fault Flow :=
  match m.calls with
  | [] => .ok .halt
  | f :: fs =>
    if f.returnsValue && v.isNone then .error (.missingReturn f.function)
    else .ok (.go { m with pc := f.returnAddress, calls := fs, returned := v })

/-! ### Operations -/

/-- What comes after a printed value. -/
def separator (newline : Bool) : String := if newline then "\n" else " "

/-- Carries out an operation. -/
def execute (image : Image) (m : Machine) : Op → Except Fault Flow
  | .assign d c => return .write m d c.toValue
  | .copy d src => do
    let v ← m.eval src
    return .write m d v
  | .binary d op l r => do
    let a ← m.eval l
    let b ← m.eval r
    let v ← op.apply a b
    return .write m d v
  | .unary d f o => do
    let a ← m.eval o
    let v ← f.apply a
    return .write m d v
  | .label _ => return .go m.next
  | .jump l => do
    let k ← image.position l
    return .go { m with pc := k }
  | .jumpIfFalse c l => do
    let v ← m.eval c
    if ← v.asBool then return .go m.next
    let k ← image.position l
    return .go { m with pc := k }
  | .param o => do
    let v ← m.eval o
    return .go { m.next with args := v :: m.args }
  | .call f argc => call image m f argc
  | .return none => leave m none
  | .return (some o) => do
    let v ← m.eval o
    leave m (some v)
  | .print o newline => do
    let v ← m.eval o
    return .go { m.next with output := m.output ++ v.text ++ separator newline }
  | .input d ty => return .await d ty
  | .newArray d len => return .write m d (.array (List.replicate len .void))
  | .newMatrix d rows cols => return .write m d (.matrix (.zeros rows cols))
  | .load d base row col => do
    let i ← m.evalInt row
    let j ← m.evalIndex col
    let b ← m.eval base
    let v ← b.loadIndex i j
    return .write m d v
  | .store base row col o => do
    let i ← m.evalInt row
    let j ← m.evalIndex col
    let v ← m.eval o
    let b ← m.read base
    let b ← b.storeIndex i j v
    return .write m base b
  | .halt => return .halt

/-! ### Steps -/

/-- What a step leads to. -/
inductive Outcome where
  | running (m : Machine)
  | finished (m : Machine)
  | awaiting (m : Machine) (dest : Place) (ty : Ty)
  | faulted (m : Machine) (f : Fault)

/-- Whether more instructions were executed than the settings allow. -/
def overLimit (settings : MachineSettings) (m : Machine) : Option Nat :=
  match settings.maxSteps with
  | some limit => if limit < m.executed then some limit else none
  | none => none

/-- Executes an instruction that is no label: it is counted, then its line is noted, then it
acts. -/
def perform (image : Image) (m : Machine) (i : Instr) : Outcome :=
  let m := { m with executed := m.executed + 1 }
  match overLimit image.settings m with
  | some limit => .faulted m (.stepLimitExceeded limit)
  | none =>
    let m := m.modifyFrame fun f => { f with line := some i.line }
    match execute image m i.op with
    | .ok (.go m) => .running m
    | .ok .halt => .finished m
    | .ok (.await dest ty) => .awaiting m dest ty
    | .error f => .faulted m f

/-- Executes the instruction at the present position.  Behind the last one the program is
finished. -/
def step (image : Image) (m : Machine) : Outcome :=
  match image.instrs[m.pc]? with
  | none => .finished m
  | some i => if i.op.label?.isSome then .running m.next else perform image m i

end Machine

end NumericScript
