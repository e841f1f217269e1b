import NumericScript.Analysis
import NumericScript.Lowering
import NumericScript.Optimize

/-! # Compilation

From source text to code, stage by stage.  A stage is entered only if those before it have
found no error. -/

namespace NumericScript

/-- What the stages gave, as far as they came. -/
structure Compilation where
  tokens : List Token
  /-- The program with what analysis found out. -/
  analysis : Option Analysis
  code : Option Code
  optimized : Option Code
  stats : Option OptimizerStats
  diagnostics : List Diagnostic

namespace Compilation

/-- Whether there is code to run. -/
def succeeded (c : Compilation) : Bool := !hasErrors c.diagnostics && c.optimized.isSome

end Compilation

/-- The code to run in the place of `code`, and what was changed in it. -/
def Settings.optimized (settings : Settings) (code : Code) : Code × OptimizerStats :=
  if settings.optimize then code.optimize settings.optimizer else (code, {})

/-- Compiles the analysed program of `tokens`, whose warnings are `warnings`. -/
def finishCompilation (settings : Settings) (tokens : List Token) (analysis : Analysis)
    (warnings : List Diagnostic) : Compilation :=
  match analysis.program.lower with
  | .error e =>
    ⟨tokens, some analysis, none, none, none, warnings ++ [e.diagnostic .semantic]⟩
  | .ok code =>
    let (optimized, stats) := settings.optimized code
    ⟨tokens, some analysis, some code, some optimized, some stats, warnings⟩

/-- The stages of compilation, without the lines of the source in diagnostics. -/
def compileStages (source : String) (settings : Settings) : Compilation :=
  let scan := Token.scan source
  if !scan.errors.isEmpty then
    ⟨scan.tokens, none, none, none, none, scan.errors.map Diagnostic.ofLexical⟩
  else
    let parse := Program.parse scan.tokens
    if !parse.reports.isEmpty then
      ⟨scan.tokens, none, none, none, none, parse.reports.map Diagnostic.ofSyntax⟩
    else
      let analysis := parse.program.analyze settings.suggestions
      let diagnostics := analysis.reports.map Diagnostic.ofSemantic
      if hasErrors diagnostics then
        ⟨scan.tokens, some analysis, none, none, none, diagnostics⟩
      else finishCompilation settings scan.tokens analysis diagnostics

/-- Compiles a source text. -/
def compile (source : String) (settings : Settings) : Compilation :=
  let c := compileStages source settings
  { c with diagnostics := attachContext source c.diagnostics }

end NumericScript
