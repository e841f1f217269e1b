import NumericScript.Optimize.Constants
import NumericScript.Optimize.DeadCode
import NumericScript.Optimize.Peephole
import NumericScript.Optimize.Strength
import NumericScript.Settings

/-! # The optimizer

The passes in turn, round after round, until a round changes nothing or there were as many
rounds as the settings allow. -/

namespace NumericScript

/-- How many changes the passes made, and in how many rounds there were changes. -/
structure OptimizerStats where
  folded : Nat := 0
  propagated : Nat := 0
  removed : Nat := 0
  simplified : Nat := 0
  reduced : Nat := 0
  rounds : Nat := 0
deriving DecidableEq, Repr, Inhabited

namespace OptimizerStats

/-- All changes. -/
def total (s : OptimizerStats) : Nat :=
  s.folded + s.propagated + s.removed + s.simplified + s.reduced

/-- The changes of two stretches of work. -/
def add (s t : OptimizerStats) : OptimizerStats :=
  ⟨s.folded + t.folded, s.propagated + t.propagated, s.removed + t.removed,
    s.simplified + t.simplified, s.reduced + t.reduced, s.rounds + t.rounds⟩

end OptimizerStats

namespace Code

/-- The passes one after the other. -/
def round (code : List Instr) : List Instr × OptimizerStats :=
  let folding := folding code
  let propagation := propagation folding.code
  let deadCode := deadCode propagation.code
  let peephole := peephole deadCode.code
  let strength := strength peephole.code
  (strength.code, ⟨folding.changes, propagation.changes, deadCode.changes, peephole.changes,
    strength.changes, 1⟩)

/-- At most `n` rounds, of which the last may be one without changes and does not count. -/
def roundsFrom (stats : OptimizerStats) (code : List Instr) :
    Nat → List Instr × OptimizerStats
  | 0 => (code, stats)
  | n + 1 =>
    let (code, more) := round code
    if more.total = 0 then (code, stats) else roundsFrom (stats.add more) code n

/-- The optimized code, and what was changed. -/
def optimize (c : Code) (settings : OptimizerSettings) : Code × OptimizerStats :=
  let (instrs, stats) := roundsFrom {} c.instrs settings.maxRounds
  ({ c with instrs := instrs }, stats)

end Code

end NumericScript
