import NumericScript.Builtin

/-! # Settings

What a user may choose, and the choices made where nothing is said. -/

namespace NumericScript

/-- How many near misses of a name are suggested, and how far from it they may be. -/
structure SuggestionSettings where
  maxCandidates : Nat := 3
  maxDistance : Nat := 2
deriving DecidableEq, Repr, Inhabited

/-- How often the optimizer goes over a program. -/
structure OptimizerSettings where
  maxRounds : Nat := 16
deriving DecidableEq, Repr, Inhabited

/-- The limits of a run, and the unit of angles at its start. -/
structure MachineSettings where
  maxCallDepth : Nat := 512
  /-- The greatest number of instructions, if there is one. -/
  maxSteps : Option Nat := none
  angleMode : AngleMode := .radians
deriving DecidableEq, Repr, Inhabited

/-- All settings. -/
structure Settings where
  optimize : Bool := true
  suggestions : SuggestionSettings := {}
  optimizer : OptimizerSettings := {}
  machine : MachineSettings := {}
deriving DecidableEq, Repr, Inhabited

end NumericScript
