import NumericScript.Proofs.Lowering.Analysed
import NumericScript.Proofs.Lowering.Steady
import NumericScript.Proofs.Optimize.Rounds

/-! # Compiled programs

What compiles was read, analysed without an error and lowered, and its code is of the kind that
the optimizer expects.

* `Op.Safe`: what the optimizer relies on when an operation of lowered code is executed.
* `compile_run_iff`: raw and optimized code of what compiles run alike, as long as the raw code
  is safe. -/

namespace NumericScript

open Analysis Lowering

/-! ### Programs that follow the rules -/

mutual

theorem callsOnly_of_stmtTyped (st : Stmt) : ∀ {σ : Scene} {Γ Γ' : Env} {k k' : Nat},
    StmtTyped σ Γ k st Γ' k' → st.callsOnly = true := by
  intro σ Γ Γ' k k' h
  cases h with
  | decl | assign | store | «break» | «continue» | leave | «return» | print | input => rfl
  | cond he hb => exact allCallsOnly_of_blockTyped _ hb
  | branch he hb ho =>
    rw [Stmt.callsOnly, allCallsOnly_of_blockTyped _ hb, allCallsOnly_of_blockTyped _ ho]
    rfl
  | «while» he hb => exact allCallsOnly_of_blockTyped _ hb
  | «repeat» he ht hb => exact allCallsOnly_of_blockTyped _ hb
  | «for» hs hi he hsu hnd hu hb =>
    rw [Stmt.callsOnly, callsOnly_of_stmtTyped _ hi, callsOnly_of_stmtTyped _ hu,
      allCallsOnly_of_blockTyped _ hb]
    rfl
  | @expr _ _ _ loc e t hs he =>
    cases e <;> first | rfl | cases hs
termination_by structural st

theorem allCallsOnly_of_blockTyped (ss : List Stmt) : ∀ {σ : Scene} {Γ Γ' : Env} {k k' : Nat},
    BlockTyped σ Γ k ss Γ' k' → Stmt.allCallsOnly ss = true := by
  intro σ Γ Γ' k k' h
  cases h with
  | nil => rfl
  | cons hs hss =>
    rw [Stmt.allCallsOnly, callsOnly_of_stmtTyped _ hs, allCallsOnly_of_blockTyped _ hss]
    rfl
termination_by structural ss

end

theorem allCallsOnly_of_topTyped : ∀ {p : Program} {Γ Γ' : Env} {k k' : Nat},
    TopTyped Γ k p Γ' k' → Stmt.allCallsOnly p = true
  | [], _, _, _, _, _ => rfl
  | st :: p, _, _, _, _, h => by
    cases h with
    | function hw hp hb h =>
      rw [Stmt.allCallsOnly, Stmt.callsOnly, allCallsOnly_of_blockTyped _ hb,
        allCallsOnly_of_topTyped h]
      rfl
    | cons hs h =>
      rw [Stmt.allCallsOnly, callsOnly_of_stmtTyped _ hs, allCallsOnly_of_topTyped h]
      rfl

namespace ProgramTyped

variable {p : Program} {code : Code}

theorem allCallsOnly (h : ProgramTyped p) : Stmt.allCallsOnly p = true := by
  obtain ⟨Γ, k, htop⟩ := h.top
  exact allCallsOnly_of_topTyped htop

theorem tidy (h : ProgramTyped p) (hl : p.lower = .ok code) :
    Tidy (HeldIn code.instrs) (MovingIn code.instrs) code.instrs := by
  obtain ⟨top, regions, s₁, s₂, ht, hr, hcode⟩ := Program.exists_of_lower hl
  rw [hcode]
  exact Program.tidy ht hr h.allCallsOnly

end ProgramTyped

/-! ### Compilation -/

/-- A source text that is read without an error is analysed.  What analysis accepts is lowered. -/
theorem compileStages_cases (source : String) (settings : Settings) :
    ((compileStages source settings).analysis = none ∧
      (compileStages source settings).optimized = none) ∨
    ∃ q : Program, Stmt.AreSource q ∧
      (compileStages source settings).analysis = some (q.analyze settings.suggestions) ∧
      ((¬ Clean (q.analyze settings.suggestions).reports ∧
          (compileStages source settings).optimized = none) ∨
        (Clean (q.analyze settings.suggestions).reports ∧ ∃ tokens warnings,
          compileStages source settings =
            finishCompilation settings tokens (q.analyze settings.suggestions) warnings)) := by
  unfold compileStages
  dsimp only
  split
  · exact .inl ⟨rfl, rfl⟩
  split
  · exact .inl ⟨rfl, rfl⟩
  have hsource := Program.areSource_parse source
  generalize (Program.parse (Token.scan source).tokens).program = q at hsource ⊢
  refine .inr ⟨q, hsource, ?_⟩
  split
  · rename_i herrors
    refine ⟨rfl, .inl ⟨fun hclean => ?_, rfl⟩⟩
    obtain ⟨d, hd, herror⟩ := List.any_eq_true.1 herrors
    obtain ⟨r, hr, rfl⟩ := List.mem_map.1 hd
    exact hclean r hr (of_decide_eq_true herror)
  · rename_i herrors
    refine ⟨?_, .inr ⟨fun r hr hsev => herrors ?_, _, _, rfl⟩⟩
    · unfold finishCompilation
      split <;> rfl
    · exact List.any_eq_true.2 ⟨.ofSemantic r, List.mem_map_of_mem hr, decide_eq_true hsev⟩

/-- What was analysed was read without an error.  If analysis accepts it, its code is what it is
lowered to. -/
theorem exists_source_of_analysis {source : String} {settings : Settings} {a : Analysis}
    (h : (compile source settings).analysis = some a) :
    ∃ q : Program, Stmt.AreSource q ∧ q.analyze settings.suggestions = a ∧
      ∀ raw, Clean a.reports → a.program.lower = .ok raw →
        (compile source settings).code = some raw := by
  change (compileStages source settings).analysis = some a at h
  rcases compileStages_cases source settings with ⟨hnone, -⟩ | ⟨q, hsource, hq, hcases⟩
  · rw [h] at hnone
    cases hnone
  · obtain rfl := Option.some.inj (h.symm.trans hq)
    refine ⟨q, hsource, rfl, fun raw hclean hl => ?_⟩
    change (compileStages source settings).code = some raw
    rcases hcases with ⟨hnot, -⟩ | ⟨-, tokens, warnings, hstages⟩
    · exact absurd hclean hnot
    · rw [hstages, finishCompilation, hl]

/-- What compiles was read and analysed without an error, and the annotated program was lowered. -/
theorem exists_source_of_succeeded {source : String} {settings : Settings}
    (h : (compile source settings).succeeded = true) :
    ∃ (q p : Program) (raw : Code), Stmt.AreSource q ∧
      Clean (q.analyze settings.suggestions).reports ∧
      p = (q.analyze settings.suggestions).program ∧ p.lower = .ok raw ∧
      (compile source settings).analysis.map (·.program) = some p ∧
      (compile source settings).code = some raw ∧
      (compile source settings).optimized = some (settings.optimized raw).1 ∧
      (compile source settings).stats = some (settings.optimized raw).2 := by
  obtain ⟨-, ho⟩ := Bool.and_eq_true_iff.1 h
  change (compileStages source settings).optimized.isSome = true at ho
  change ∃ (q p : Program) (raw : Code), _ ∧ _ ∧ _ ∧ _ ∧
    (compileStages source settings).analysis.map _ = _ ∧
    (compileStages source settings).code = _ ∧
    (compileStages source settings).optimized = _ ∧ (compileStages source settings).stats = _
  rcases compileStages_cases source settings with ⟨-, hnone⟩ | ⟨q, hsource, -, hcases⟩
  · rw [hnone] at ho
    cases ho
  rcases hcases with ⟨-, hnone⟩ | ⟨hclean, tokens, warnings, hstages⟩
  · rw [hnone] at ho
    cases ho
  rw [hstages] at ho ⊢
  unfold finishCompilation at ho ⊢
  split at ho
  · cases ho
  rename_i raw hraw
  exact ⟨q, _, raw, hsource, hclean, rfl, hraw, rfl, rfl, rfl, rfl⟩

/-- What compiles was analysed without an error, and the annotated program was lowered. -/
theorem exists_program_of_succeeded {source : String} {settings : Settings}
    (h : (compile source settings).succeeded = true) :
    ∃ p raw, ProgramTyped p ∧ p.lower = .ok raw ∧
      (compile source settings).analysis.map (·.program) = some p ∧
      (compile source settings).code = some raw ∧
      (compile source settings).optimized = some (settings.optimized raw).1 ∧
      (compile source settings).stats = some (settings.optimized raw).2 := by
  obtain ⟨q, p, raw, hsource, hclean, rfl, hcompiled⟩ := exists_source_of_succeeded h
  exact ⟨_, raw, Program.typed_of_analyze hsource hclean, hcompiled⟩

/-- What compiles was lowered from a program that follows the rules of analysis. -/
theorem exists_of_succeeded {source : String} {settings : Settings}
    (h : (compile source settings).succeeded = true) :
    ∃ p raw, ProgramTyped p ∧ p.lower = .ok raw ∧ (compile source settings).code = some raw ∧
      (compile source settings).optimized = some (settings.optimized raw).1 ∧
      (compile source settings).stats = some (settings.optimized raw).2 := by
  obtain ⟨p, raw, hp, hl, -, hcode⟩ := exists_program_of_succeeded h
  exact ⟨p, raw, hp, hl, hcode⟩

/-! ### Safe runs -/

/-- What the optimizer relies on when an operation of lowered code is executed: a variable that
is copied to itself has a value, and so has one that is multiplied or divided by one; and a
product, a quotient or a square is the same in the cheaper forms that the optimizer has for
it. -/
def Op.Safe (m : Machine) : Op → Prop
  | .copy d s => s = .place d → m.HasValue s
  | .binary _ op l r =>
    (∀ v w, m.eval l = .ok v → m.eval r = .ok w → op.Robust v w) ∧ m.Guarded op l r
  | _ => True

/-- The operation at hand is safe. -/
def SafeAt (code : List Instr) (p : Point) : Prop :=
  ∀ i, code[p.machine.pc]? = some i → i.op.Safe p.machine

/-- A safe operation is one that the optimizer may rely on, when all temporaries into which
variables are copied are known. -/
theorem Op.Safe.trusty {code : List Instr} {i : Instr} (hi : i ∈ code) {m : Machine}
    (h : i.op.Safe m) : i.op.Trusty (HeldIn code) m := by
  cases hop : i.op with
  | copy d s =>
    rw [hop] at h
    by_cases hv : ∃ v, s = .place (.var v)
    · obtain ⟨v, rfl⟩ := hv
      by_cases hd : Operand.place (.var v) = .place d
      · exact .inl (h hd)
      · refine .inr ⟨hd, ?_⟩
        rintro t rfl
        exact ⟨i, hi, v, hop⟩
    · exact .inl fun x hx => absurd ⟨x, hx⟩ hv
  | binary d f l r =>
    rw [hop] at h
    exact h
  | _ => trivial

/-- Raw and optimized code of what compiles run alike, as long as the raw code is safe: both
come to an end or neither does, and the outcomes are the same. -/
theorem compile_run_iff (source : String) (settings : Settings)
    (hm : settings.machine.maxSteps = none)
    (hs : (compile source settings).succeeded = true) :
    ∃ raw optimized, (compile source settings).code = some raw ∧
      (compile source settings).optimized = some optimized ∧
      ∀ lines, (raw.link settings.machine).Always (SafeAt raw.instrs)
          ((raw.link settings.machine).startPoint lines) →
        ∀ o, (∃ fuel, raw.run settings.machine fuel lines = some o) ↔
          ∃ fuel, optimized.run settings.machine fuel lines = some o := by
  obtain ⟨p, raw, hp, hl, hraw, hoptimized, -⟩ := exists_of_succeeded hs
  refine ⟨raw, _, hraw, hoptimized, fun lines hsafe o => ?_⟩
  have htrust := hsafe.mono fun q hq i hi => (hq i hi).trusty (List.mem_of_getElem? hi)
  exact Code.run_optimized_iff settings hm (ProgramTyped.label_eq hl) (hp.linked hl) (hp.tidy hl)
    lines htrust o

/-- A product of constants is safe wherever it is executed. -/
theorem compile_run_iff_product : ∃ raw optimized,
    (compile "print 2 * 3" {}).code = some raw ∧
      (compile "print 2 * 3" {}).optimized = some optimized ∧
      raw.instrs ≠ optimized.instrs ∧ (raw.run {} 9 []).map (·.output) = some "6\n" ∧
      ∀ o, (∃ fuel, raw.run {} fuel [] = some o) ↔ ∃ fuel, optimized.run {} fuel [] = some o := by
  have hs : (compile "print 2 * 3" {}).succeeded = true := by decide +kernel
  have hcode : (compile "print 2 * 3" {}).code.map (·.instrs) =
      some [⟨.binary (.temp 0) .mul (.const (.int 2)) (.const (.int 3)), 1⟩,
        ⟨.print (.place (.temp 0)) true, 1⟩, ⟨.halt, 1⟩] := by decide +kernel
  have hne : (compile "print 2 * 3" {}).code.map (·.instrs) ≠
      (compile "print 2 * 3" {}).optimized.map (·.instrs) := by decide +kernel
  have houtput : ((compile "print 2 * 3" {}).code.bind fun c => (c.run {} 9 []).map (·.output)) =
      some "6\n" := by decide +kernel
  obtain ⟨raw, optimized, hraw, hoptimized, hrun⟩ := compile_run_iff "print 2 * 3" {} rfl hs
  rw [hraw] at hcode hne houtput
  rw [hoptimized] at hne
  refine ⟨raw, optimized, hraw, hoptimized, fun h => hne (congrArg some h), houtput, ?_⟩
  refine hrun [] fun q _ i hi => ?_
  have hinstrs : raw.instrs = _ := Option.some.inj hcode
  have hmem := List.mem_of_getElem? hi
  rw [hinstrs] at hmem
  simp only [List.mem_cons, List.not_mem_nil, or_false] at hmem
  rcases hmem with rfl | rfl | rfl
  · constructor
    · rintro v w hv hw
      cases hv
      cases hw
      exact ⟨nofun, nofun, nofun, fun _ => rfl⟩
    · exact ⟨fun _ h => (by cases h), fun _ h => (by cases h)⟩
  · trivial
  · trivial

/-- Multiplying by one an element of an array that holds a text is a fault, which is lost when
the product is replaced by the element. -/
theorem not_compile_run_iff_text : ¬ ∀ source settings raw optimized,
    settings.machine.maxSteps = none → (compile source settings).succeeded = true →
    (compile source settings).code = some raw →
    (compile source settings).optimized = some optimized →
    ∀ lines o, (∃ fuel, raw.run settings.machine fuel lines = some o) ↔
      ∃ fuel, optimized.run settings.machine fuel lines = some o := by
  intro h
  let source := "function void f(array a):\n    print a[0] * 1\nend\nf([\"x\"])\n"
  have hs : (compile source {}).succeeded = true := by decide +kernel
  obtain ⟨p, raw, hp, hl, hraw, hoptimized, -⟩ := exists_of_succeeded hs
  have hfault : ((compile source {}).code.bind fun c => (c.run {} 99 []).map (·.status)) =
      some (.halted .fault) := by decide +kernel
  have hfinished :
      ((compile source {}).optimized.bind fun c => (c.run {} 99 []).map (·.status)) =
        some (.halted .finished) := by decide +kernel
  rw [hraw] at hfault
  rw [hoptimized] at hfinished
  obtain ⟨o, ho, hofault⟩ := Option.map_eq_some_iff.1 hfault
  obtain ⟨o', ho', hofinished⟩ := Option.map_eq_some_iff.1 hfinished
  have heq : o = o' :=
    Code.run_unique ((h source {} raw _ rfl hs hraw hoptimized [] o).1 ⟨99, ho⟩) ⟨99, ho'⟩
  rw [heq, hofinished] at hofault
  cases hofault

end NumericScript
