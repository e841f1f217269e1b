import NumericScript.Proofs.Analysis.Reports
import NumericScript.Proofs.Direct.Call

/-! # The code of programs

Raw code does what the program does when it is carried out directly: a run of the one comes to an
end exactly if carrying out the other does, and then both end alike, have printed the same and have
read as many lines.

* `Houses.exists_direct_iff`: linked code of a program.
* `Program.direct_iff_run`: raw code of what analysis accepts. -/

namespace NumericScript

open Direct Lowering Machine
open Analysis (Clean)

/-! ### Top level -/

section

variable {code : List Instr} {image : Image} {n : Nat} {c : Context} {σ : Scene} {p : Program}

/-- A run is at its end. -/
def Image.Ends (image : Image) (q : Point) : Prop := image.advance q = .done q.world.finished

theorem Ready.ends (hr : Ready code image) {q : Point} {op : Op} {line : Nat}
    (h : code[q.machine.pc]? = some ⟨op, line⟩) (hl : op.label? = none)
    (he : execute image (q.machine.noted line) op = .ok .halt) : image.Ends q := by
  rw [Image.Ends, Image.advance_of_op hr.unlimited (hr.getElem? h) hl]
  dsimp only
  rw [he, Image.follow, output_noted]
  rfl

/-- At top level a program ends when it returns. -/
theorem Leaves.ends (hr : Ready code image) {bound k : Nat} {p q : Point} {v : Option Value}
    (h : Leaves code image c bound p k (.returned v) q) (hq : q.machine.calls = []) :
    image.Ends q := by
  cases h with
  | @returned _ j line o _ hat hv hsome hwent =>
    obtain rfl := hwent.pc
    have hcalls : (q.machine.noted line).calls = [] := by
      rw [noted, modifyFrame, hq]
    refine hr.ends hat rfl ?_
    rw [execute_return, givesBack_noted, hv]
    change Machine.leave _ v = _
    rw [Machine.leave, hcalls]

/-- The statements at top level. -/
theorem Lowering.TopCode.tracks (hσ : Plays code image n 0 c σ) (hloop : c.loop = none)
    (hfunction : σ.function = none) {s s' : State} {piece : List Instr}
    (h : TopCode c s p piece s') : ∀ {k : Nat} {q : Point}, CodeAt code k piece →
    Stands none 0 k q →
    Tracks image n q (fun _ => image.Ends) (Direct.block σ p q.world) := by
  induction h with
  | nil =>
    intro k q hat hq
    obtain rfl := hq.pc
    exact .pure (hσ.ready.ends (codeAt_singleton.1 hat) rfl rfl)
  | @function s s₁ st rest piece hf h ih =>
    intro k q hat hq
    cases st with
    | function => exact ih hat hq
    | _ => cases hf
  | @cons s s₁ s₂ st rest piece pieces hf hs h ih =>
    intro k q hat hq
    rw [codeAt_append] at hat
    rw [Direct.block]
    have hq' : Stands σ.function 0 k q := hfunction ▸ hq
    refine (StmtCode.tracks st hσ hs hat.1 hq').bind fun exit r hr => ?_
    cases exit with
    | returned v =>
      refine .pure (hr.ends hσ.ready ?_)
      cases hr with
      | returned _ _ _ hwent => exact (hq.went hwent).resident.function
    | normal => exact ih hat.2 (hq.went hr.went)
    | broke =>
      cases hr with
      | broke hl => rw [hloop] at hl; cases hl
    | continued =>
      cases hr with
      | continued hl => rw [hloop] at hl; cases hl

/-- Linked code of a program halts exactly if the program does that is carried out directly. -/
theorem Houses.exists_direct_iff (h : Houses p code image) {s' : State} {piece : List Instr}
    (ht : TopCode p.context ⟨0, 0, 0⟩ p piece s') (hat : CodeAt code 0 piece)
    (lines : List String) (o : RunOutcome) :
    (∃ bound, p.direct image.settings bound lines = some o) ↔
      image.Halts (image.startPoint lines) o := by
  have htracks : ∀ bound, Tracks image bound (image.startPoint lines) (fun _ => image.Ends)
      (Direct.block (scene p (Direct.call p image.settings bound 0) none bound) p
        (image.settings.world lines)) := fun bound =>
    ht.tracks (h.plays (fun _ => rfl) rfl fun hf => h.tracks_call hf) rfl rfl hat
      ⟨rfl, rfl, rfl⟩
  have hdirect : ∀ bound o', p.direct image.settings bound lines = some o' →
      image.Halts (image.startPoint lines) o' := by
    intro bound o' ho
    have htracks := htracks bound
    unfold Program.direct at ho
    generalize Direct.block _ p _ = x at ho htracks
    rcases x with - | (o | ⟨a, w⟩)
    · cases ho
    · cases ho
      exact htracks
    · cases ho
      obtain ⟨q, hreaches, rfl, hends⟩ := htracks
      exact .of_reaches hreaches (.done hends)
  constructor
  · rintro ⟨bound, ho⟩
    exact hdirect bound o ho
  · intro hhalts
    obtain ⟨bound, hbound⟩ := hhalts.exists_not_lasts
    cases ho : p.direct image.settings bound lines with
    | some o' => exact ⟨bound, ho.trans (congrArg some ((hdirect bound o' ho).unique hhalts))⟩
    | none =>
      refine absurd ?_ hbound
      have htracks := htracks bound
      unfold Program.direct at ho
      generalize Direct.block _ p _ = x at ho htracks
      rcases x with - | (o | ⟨a, w⟩)
      · exact htracks
      · cases ho
      · cases ho

end

/-! ### Analysed programs -/

/-- Raw code does what the program of which it is the code does when it is carried out directly:
with the same lines of input, the one comes to an end exactly if the other does, and then in the
same way, with the same output and the same lines unread. -/
theorem Program.direct_iff_run {p : Program} {suggestions : SuggestionSettings} {code : Code}
    {settings : MachineSettings} {lines : List String}
    (hclean : Clean (p.analyze suggestions).reports)
    (hlower : (p.analyze suggestions).program.lower = .ok code)
    (hsteps : settings.maxSteps = none) (o : RunOutcome) :
    (∃ bound, (p.analyze suggestions).program.direct settings bound lines = some o) ↔
      ∃ fuel, code.run settings fuel lines = some o := by
  have hnames := Program.nodup_functionNames_analyze hclean
  obtain ⟨top, regions, s₁, s₂, ht, hr, hcode⟩ := Program.exists_of_lower hlower
  have hlinked := Program.linked ht hr hnames
  rw [← hcode] at hlinked
  have hat : CodeAt code.instrs 0 top := by
    intro j i hj
    rw [hcode, Nat.zero_add, List.getElem?_append_left (List.getElem?_eq_some_iff.1 hj).1, hj]
  have hdirect := (Houses.of_lower hlower hnames hsteps).exists_direct_iff ht hat lines o
  have hrun : ∀ fuel, code.run settings fuel lines = (code.link settings).run fuel lines := by
    intro fuel
    rw [Code.run, Code.ofCode_eq_ok_iff.2 ⟨hlinked, rfl⟩]
  simp only [hrun]
  exact hdirect.trans Image.exists_run_iff.symm

/-- A variable is an operand, and a function that is called after it changes the variable. -/
theorem Program.direct_iff_run_captured : ∃ p code,
    ((Program.parse (Token.scan
      "int x = 1\nfunction int f():\n    x = x + 10\n    return x\nend\nprint x + f(), x\n"
      ).tokens).program.analyze {}).program = p ∧ p.lower = .ok code ∧
    (∃ bound, (p.direct { maxSteps := none } bound []).map (·.output) = some "12 11\n") ∧
    ∀ o, (∃ bound, p.direct { maxSteps := none } bound [] = some o) ↔
      ∃ fuel, code.run { maxSteps := none } fuel [] = some o := by
  let source :=
    "int x = 1\nfunction int f():\n    x = x + 10\n    return x\nend\nprint x + f(), x\n"
  let p := ((Program.parse (Token.scan source).tokens).program.analyze {}).program
  have hclean : Clean ((Program.parse (Token.scan source).tokens).program.analyze {}).reports := by
    unfold Clean
    decide +kernel
  have hdirect : (p.direct { maxSteps := none } 10 []).map (·.output) = some "12 11\n" := by
    decide +kernel
  obtain ⟨code, hlower⟩ : ∃ code, p.lower = .ok code := by
    cases hl : p.lower with
    | ok code => exact ⟨code, rfl⟩
    | error e =>
      have hok : p.lower.toOption.isSome := by decide +kernel
      rw [hl] at hok
      cases hok
  exact ⟨p, code, rfl, hlower, ⟨10, hdirect⟩, Program.direct_iff_run hclean hlower rfl⟩

end NumericScript
