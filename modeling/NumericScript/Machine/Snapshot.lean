import NumericScript.Machine.Session

/-! # Snapshots

What a host sees of a session: the variables and the calls.  Temporaries are not shown. -/

namespace NumericScript

/-- What is seen of a frame. -/
structure FrameSnapshot where
  function : String
  entryLine : Nat
  /-- The line at which the frame is: of the next instruction in the innermost frame of a
  session that goes on, else of the last one. -/
  currentLine : Option Nat
  /-- The variables, sorted by name. -/
  locals : List (String × Value)

/-- What is seen of a session. -/
structure Snapshot where
  /-- The global variables, sorted by name. -/
  globals : List (String × Value)
  /-- The frames, the outermost first. -/
  callStack : List FrameSnapshot

/-- What is stored, sorted by name. -/
def Store.sorted {α : Type} (s : Store String α) : List (String × α) :=
  s.mergeSort fun a b => ¬ b.1 < a.1

/-- What is seen of a frame that is at a line. -/
def Frame.snapshot (f : Frame) (line : Option Nat) : FrameSnapshot :=
  ⟨f.function, f.entryLine, line, Store.sorted f.locals⟩

namespace Session

/-- The line at which the innermost frame is. -/
def frameLine (image : Image) (s : Session) : Option Nat :=
  if s.status.isHalted then s.machine.frame.line else s.line? image

/-- What is seen of a session. -/
def inspect (image : Image) (s : Session) : Snapshot :=
  let m := s.machine
  let innermost := m.frame.snapshot (s.frameLine image)
  let around := match m.calls with
    | [] => []
    | _ :: outer => m.main :: outer.reverse
  ⟨Store.sorted m.globals, around.map (fun f => f.snapshot f.line) ++ [innermost]⟩

end Session

namespace Snapshot

/-- How many frames there are. -/
def depth (s : Snapshot) : Nat := s.callStack.length

/-- The value of a variable: of one in the innermost frame, else of a global one. -/
def valueOf? (s : Snapshot) (name : String) : Option Value :=
  ((s.callStack.getLast?.bind fun f => Store.get? f.locals name)).or
    (Store.get? s.globals name)

end Snapshot

end NumericScript
