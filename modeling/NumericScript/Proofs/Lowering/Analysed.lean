import NumericScript.Proofs.Analysis.Follow
import NumericScript.Proofs.Lowering.Complete
import NumericScript.Proofs.Lowering.Supply

/-! # Lowering what was analysed

* `ProgramTyped.linked`: the code of a program that analysis accepts is linked.
* `lower_analyze`: when such a program is lowered, and that its code can then be made ready. -/

namespace NumericScript

open Analysis Lowering

theorem nodup_functionNames_of_entries {p : Program}
    (hd : ((functionEntries p).map (·.1)).Nodup) : p.functionNames.Nodup := by
  have hnames : (functionEntries p).map (·.1) = p.functionNames.reverse := by
    unfold functionEntries Program.functionNames
    rw [List.map_reverse, List.map_filterMap]
    congr 1
    refine List.filterMap_congr fun st _ => ?_
    cases st <;> rfl
  rw [hnames] at hd
  exact List.pairwise_reverse.1 hd |>.imp Ne.symm

namespace ProgramTyped

variable {p : Program} {code : Code}

theorem nodup_functionNames (h : ProgramTyped p) : p.functionNames.Nodup :=
  nodup_functionNames_of_entries h.distinct

theorem linked (h : ProgramTyped p) (hl : p.lower = .ok code) :
    Linked code.functions code.instrs := by
  obtain ⟨top, regions, s₁, s₂, ht, hr, hcode⟩ := Program.exists_of_lower hl
  rw [hcode]
  exact Program.linked ht hr h.nodup_functionNames

theorem label_eq (hl : p.lower = .ok code) :
    ∀ f ∈ code.functions, ∃ name, f.label = .function name := by
  obtain ⟨top, regions, s₁, s₂, ht, hr, hcode⟩ := Program.exists_of_lower hl
  intro f hf
  have hmem : f.label ∈ code.functions.map (·.label) := List.mem_map_of_mem hf
  rw [hr.labelled.names] at hmem
  obtain ⟨name, -, hname⟩ := List.mem_map.1 hmem
  exact ⟨name, hname.symm⟩

end ProgramTyped

/-- A program that is read and that analysis accepts is lowered, and its code can be made ready
to run, unless a value is wanted in it that is not there: that of a call that gives nothing, next
to something of unknown type.  Then it is this that lowering says. -/
theorem lower_analyze (source : String) (suggestions : SuggestionSettings) {p : Program}
    (hp : ((Program.parse (Token.scan source).tokens).program.analyze suggestions).program = p)
    (hclean : Clean
      ((Program.parse (Token.scan source).tokens).program.analyze suggestions).reports) :
    (Stmt.wantsVoidAny p = false → ∃ code, p.lower = .ok code ∧
      ∀ settings, ∃ image, Image.ofCode code settings = .ok image) ∧
    (Stmt.wantsVoidAny p = true → ∃ f line, p.lower = .error (.voidValue f line)) := by
  have htyped := Program.typed_of_analyze (Program.areSource_parse _) hclean
  rw [hp] at htyped
  have hlowers := htyped.lowers
  constructor
  · intro hw
    rw [hw] at hlowers
    obtain ⟨code, hcode⟩ := hlowers
    refine ⟨code, hcode, fun settings => ⟨code.link settings, ?_⟩⟩
    exact Code.ofCode_eq_ok_iff.2 ⟨htyped.linked hcode, rfl⟩
  · intro hw
    rw [hw] at hlowers
    exact hlowers

/-- A call that gives nothing may stand as a statement. -/
theorem lower_analyze_statement : ∃ p, ((Program.parse (Token.scan
      "function void f(int n):\n    print n\nend\nf(1 + 2)\n").tokens).program.analyze {}).program = p ∧
    Stmt.wantsVoidAny p = false ∧ ∃ code, p.lower = .ok code ∧
      ∀ settings, ∃ image, Image.ofCode code settings = .ok image := by
  have hclean : Clean ((Program.parse (Token.scan
      "function void f(int n):\n    print n\nend\nf(1 + 2)\n").tokens).program.analyze {}).reports := by
    unfold Clean
    decide +kernel
  have hw : Stmt.wantsVoidAny ((Program.parse (Token.scan
      "function void f(int n):\n    print n\nend\nf(1 + 2)\n").tokens).program.analyze {}).program =
        false := by decide +kernel
  exact ⟨_, rfl, hw, (lower_analyze _ {} rfl hclean).1 hw⟩

/-- Where one operand is an element of unknown type, analysis does not ask whether the other has
a value. -/
theorem not_lower_analyze_operand : ¬ ∀ source suggestions,
    (Token.scan source).errors = [] → (Program.parse (Token.scan source).tokens).reports = [] →
    Clean ((Program.parse (Token.scan source).tokens).program.analyze suggestions).reports →
    ∃ code, ((Program.parse (Token.scan source).tokens).program.analyze suggestions).program.lower =
      .ok code := by
  intro h
  let source := "function void f():\n    return\nend\narray a = []\nprint a[0] + f()\n"
  have hlex : (Token.scan source).errors.isEmpty = true := by decide +kernel
  have hparse : (Program.parse (Token.scan source).tokens).reports.isEmpty = true := by
    decide +kernel
  have hclean : Clean ((Program.parse (Token.scan source).tokens).program.analyze {}).reports := by
    unfold Clean
    decide +kernel
  have hlower : ((Program.parse (Token.scan source).tokens).program.analyze {}).program.lower.isOk =
      false := by decide +kernel
  obtain ⟨code, hcode⟩ := h source {} (List.isEmpty_iff.1 hlex) (List.isEmpty_iff.1 hparse) hclean
  rw [hcode] at hlower
  cases hlower

end NumericScript
