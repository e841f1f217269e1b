import NumericScript.Compile
import NumericScript.Proofs.Optimize.Strength

/-! # The optimizer as a whole

Every pass preserves code, and so do rounds of passes.

* `preserves_rounds`: any number of rounds preserves code.
* `Code.linked_optimized`: optimized code can be made ready to run.
* `Code.run_optimized_iff`: optimized code runs as the code before, wherever the optimizer may
  rely on the run. -/

namespace NumericScript

variable {functions : List FunctionInfo} {settings : MachineSettings} {held moving : Nat → Prop}

/-- The passes one after the other preserve code. -/
theorem preserves_round (hs : settings.maxSteps = none)
    (hf : ∀ f ∈ functions, ∃ name, f.label = .function name) (code : List Instr) :
    Preserves functions settings held moving code (Code.round code).1 :=
  ((((preserves_folding hs code).trans (preserves_propagation hs _)).trans
    (preserves_deadCode hs hf _)).trans (preserves_peephole hs _)).trans
    (preserves_strength hs _)

/-- Rounds of passes preserve code. -/
theorem preserves_rounds (hs : settings.maxSteps = none)
    (hf : ∀ f ∈ functions, ∃ name, f.label = .function name) (stats : OptimizerStats)
    (code : List Instr) (n : Nat) :
    Preserves functions settings held moving code (Code.roundsFrom stats code n).1 := by
  induction n generalizing stats code with
  | zero => exact .refl code
  | succ n ih =>
    rw [Code.roundsFrom]
    dsimp only
    split
    · exact preserves_round hs hf code
    · exact (preserves_round hs hf code).trans (ih _ _)

namespace Code

theorem run_iff_halts {c : Code} (hl : Linked c.functions c.instrs) {lines : List String}
    {o : RunOutcome} :
    (∃ fuel, c.run settings fuel lines = some o) ↔
      (c.link settings).Halts ((c.link settings).startPoint lines) o := by
  rw [← Image.exists_run_iff]
  unfold Code.run
  rw [ofCode_eq_ok_iff.2 ⟨hl, rfl⟩]

/-- Optimized code can be made ready to run if the code before can. -/
theorem linked_optimized {c : Code} (s : Settings)
    (hf : ∀ f ∈ c.functions, ∃ name, f.label = .function name)
    (hl : Linked c.functions c.instrs) :
    Linked (s.optimized c).1.functions (s.optimized c).1.instrs := by
  unfold Settings.optimized
  split
  · have hp : Preserves c.functions {} (fun _ => False) (fun _ => False) c.instrs
        (c.optimize s.optimizer).1.instrs :=
      preserves_rounds rfl hf {} c.instrs s.optimizer.maxRounds
    exact hp.linked hl
  · exact hl

/-- Optimized code runs as the code before, wherever the optimizer may rely on the run. -/
theorem run_optimized_iff {c : Code} (s : Settings) (hs : settings.maxSteps = none)
    (hf : ∀ f ∈ c.functions, ∃ name, f.label = .function name)
    (hl : Linked c.functions c.instrs) (ht : Tidy held moving c.instrs) (lines : List String)
    (htrust : (c.link settings).Always (TrustyAt held c.instrs)
      ((c.link settings).startPoint lines)) (o : RunOutcome) :
    (∃ fuel, c.run settings fuel lines = some o) ↔
      ∃ fuel, (s.optimized c).1.run settings fuel lines = some o := by
  unfold Settings.optimized
  split
  · have hp : Preserves c.functions settings held moving c.instrs
      (c.optimize s.optimizer).1.instrs := preserves_rounds hs hf {} c.instrs s.optimizer.maxRounds
    rw [run_iff_halts hl, run_iff_halts (hp.linked hl)]
    exact (hp.runs hl ht lines htrust).2 o
  · exact Iff.rfl

end Code

end NumericScript
