import NumericScript.Proofs.Analysis.Reports
import NumericScript.Proofs.Lowering.Names
import NumericScript.Proofs.Printed.Ruled

/-! # Print statements

The code of a program holds a line for every print statement, in which the code of every value comes
right before the instruction that prints it, and prints nothing besides.

* `Stmt.prints`, `Program.prints`: the print statements of a program.
* `LinesCode`: code that holds a line for each of some print statements.
* `StmtCode.lines`: the code of a statement.
* `Program.lines`: the code of a program. -/

namespace NumericScript

open Analysis Lowering

/-! ### Syntax -/

mutual

/-- What the print statements in a statement print, in the order in which their code stands.  The
code of a function is elsewhere. -/
def Stmt.prints : Stmt → List (List Expr)
  | .cond _ _ body none => Stmt.allPrints body
  | .cond _ _ body (some orElse) => Stmt.allPrints body ++ Stmt.allPrints orElse
  | .while _ _ body | .repeat _ _ body => Stmt.allPrints body
  | .for _ init _ update body => init.prints ++ Stmt.allPrints body ++ update.prints
  | .print _ values => [values]
  | _ => []

/-- What the print statements in statements print. -/
def Stmt.allPrints : List Stmt → List (List Expr)
  | [] => []
  | st :: ss => st.prints ++ Stmt.allPrints ss

end

/-- What the print statements in the body of a function print. -/
def Stmt.bodyPrints : Stmt → List (List Expr)
  | .function _ _ _ _ body => Stmt.allPrints body
  | _ => []

/-- What the print statements of a program print, those of its functions behind the others. -/
def Program.prints (p : Program) : List (List Expr) :=
  p.flatMap Stmt.prints ++ p.flatMap Stmt.bodyPrints

/-- Among lists behind lists there is an empty one if there is one among either. -/
theorem full_append {vss vss' : List (List Expr)} :
    [] ∉ vss ++ vss' ↔ [] ∉ vss ∧ [] ∉ vss' := by
  rw [List.mem_append, not_or]

/-! ### Lowering -/

namespace Lowering

/-- A phrase evaluates an expression and prints what it comes to. -/
def Evaluates (σ : Store String Signature) (e : Expr) (ph : Phrase) : Prop :=
  ∃ c s s', c.signatures = σ ∧ ExprCode c s e ph.code ph.value s'

/-- Code that prints lines, each with the values of the expressions in one of the lists. -/
def LinesCode (σ : Store String Signature) (vss : List (List Expr)) (code : List Instr) : Prop :=
  ∃ lines, Ruled code lines ∧ List.Forall₂ (List.Forall₂ (Evaluates σ)) vss lines

variable {σ : Store String Signature} {vss vss' : List (List Expr)} {code code' : List Instr}
  {c : Context} {s s' : State} {op : Op}

theorem map_length_eq {lines : List (List Phrase)}
    (h : List.Forall₂ (List.Forall₂ (Evaluates σ)) vss lines) :
    vss.map List.length = lines.map List.length := by
  rw [← List.forall₂_eq_eq_eq, List.forall₂_map_left_iff, List.forall₂_map_right_iff]
  exact h.imp fun _ _ h => h.length_eq

namespace LinesCode

theorem of_silent (h : ∀ i ∈ code, i.op.isPrint = false) : LinesCode σ [] code :=
  ⟨[], .of_silent h, .nil⟩

theorem nil : LinesCode σ [] [] := of_silent (List.forall_mem_nil _)

theorem append (h : LinesCode σ vss code) (h' : LinesCode σ vss' code') :
    LinesCode σ (vss ++ vss') (code ++ code') := by
  obtain ⟨lines, hcode, hlines⟩ := h
  obtain ⟨lines', hcode', hlines'⟩ := h'
  exact ⟨_, hcode.append hcode', List.rel_append hlines hlines'⟩

/-- Code that prints nothing behind code. -/
theorem behind (h : LinesCode σ vss code) (h' : ∀ i ∈ code', i.op.isPrint = false) :
    LinesCode σ vss (code ++ code') := by
  simpa using h.append (of_silent h')

theorem «then» (h : LinesCode σ vss code) (hop : op.isPrint = false) :
    LinesCode σ vss (code ++ [s.instr op]) :=
  h.behind fun i hi => by obtain rfl := List.mem_singleton.1 hi; exact hop

end LinesCode

theorem Computes.silent (h : Computes code) : ∀ i ∈ code, i.op.isPrint = false :=
  fun i hi => (Op.isInline_iff.1 (h i hi).1).2.2

theorem isPrint_put (p : Place) (a : Operand) : (put p a).isPrint = false := by
  cases a <;> rfl

/-- The code that prints values is that of a line. -/
theorem PrintsCode.exists_line {es : List Expr} (h : PrintsCode c s es code s') :
    ∃ line, lineCode line = code ∧ List.Forall₂ (Evaluates c.signatures) es line := by
  induction h with
  | nil => exact ⟨[], rfl, .nil⟩
  | @cons s s₁ _ e es code rest a he _ ih =>
    obtain ⟨line, rfl, hline⟩ := ih
    let ph : Phrase := ⟨code, a, s₁.line, fun i hi => (he.computes i hi).1⟩
    refine ⟨ph :: line, ?_, .cons ⟨c, s, s₁, rfl, he⟩ hline⟩
    have hempty : line.isEmpty = es.isEmpty := by cases hline <;> rfl
    rw [lineCode, hempty]
    rfl

theorem silent_then (h : ∀ i ∈ code, i.op.isPrint = false) (hop : op.isPrint = false) :
    ∀ i ∈ code ++ [s.instr op], i.op.isPrint = false :=
  List.forall_mem_append.2 ⟨h, fun i hi => by obtain rfl := List.mem_singleton.1 hi; exact hop⟩

theorem VariableCode.silent {x : Name} {e : Expr} (h : VariableCode c s x e code s') :
    ∀ i ∈ code, i.op.isPrint = false := by
  cases h with
  | mk hb he => exact silent_then he.computes.silent (isPrint_put _ _)

theorem ElementCode.silent {x : Name} {sub : Subscript} {e : Expr}
    (h : ElementCode c s x sub e code s') : ∀ i ∈ code, i.op.isPrint = false := by
  cases h with
  | element hb hr hk he =>
    exact silent_then ((hr.computes.append hk.computes).append he.computes).silent rfl
  | entry hb hr hk hc hkc he =>
    have hrow := hr.computes.append hk.computes
    have hcol := hc.computes.append hkc.computes
    exact silent_then ((hrow.append hcol).append he.computes).silent rfl

mutual

/-- The code of a statement prints a line for every print statement in it. -/
theorem StmtCode.lines (st : Stmt) : ∀ {c : Context} {s s' : State} {code : List Instr},
    StmtCode c s st code s' → [] ∉ st.prints → LinesCode c.signatures st.prints code := by
  intro c s s' code h hfull
  cases h with
  | decl h | assign h => exact .of_silent h.silent
  | store h => exact .of_silent h.silent
  | function => exact .nil
  | cond he hb =>
    have hbody := BlockCode.lines _ hb hfull
    exact (((LinesCode.of_silent he.computes.silent).then rfl).append hbody).then rfl
  | branch he hb ho =>
    obtain ⟨hb', ho'⟩ := full_append.1 hfull
    have hbody := BlockCode.lines _ hb hb'
    have helse := BlockCode.lines _ ho ho'
    exact ((((((LinesCode.of_silent he.computes.silent).then rfl).append hbody).then rfl).then
      rfl).append helse).then rfl
  | «while» h₀ he hb =>
    have hbody := BlockCode.lines _ hb hfull
    exact (((((LinesCode.nil.then rfl).behind he.computes.silent).then rfl).append hbody).then
      rfl).then rfl
  | «repeat» he hb h₃ =>
    have hbody := BlockCode.lines _ hb hfull
    exact (((((((((((LinesCode.of_silent he.computes.silent).then (isPrint_put _ _)).then
      (isPrint_put _ _)).then rfl).then rfl).then rfl).append hbody).then rfl).then rfl).then
        rfl).then rfl)
  | «for» hi h₂ he hb h₅ hu =>
    obtain ⟨hrest, hu'⟩ := full_append.1 hfull
    obtain ⟨hi', hb'⟩ := full_append.1 hrest
    have hinit := StmtCode.lines _ hi hi'
    have hbody := BlockCode.lines _ hb hb'
    have hupdate := StmtCode.lines _ hu hu'
    exact (((((((hinit.then rfl).behind he.computes.silent).then rfl).append hbody).then
      rfl).append hupdate).then rfl).then rfl
  | «break» | «continue» | leave => exact LinesCode.nil.then rfl
  | «return» he => exact (LinesCode.of_silent he.computes.silent).then rfl
  | print h =>
    obtain ⟨line, rfl, hline⟩ := h.exists_line
    refine ⟨[line], ?_, .cons hline .nil⟩
    have hne : line ≠ [] := by
      rintro rfl
      cases hline
      exact hfull List.mem_cons_self
    simpa using Ruled.nil.line hne
  | input => exact LinesCode.nil.then rfl
  | call hf ha => exact (LinesCode.of_silent ha.computes.silent).then rfl
  | expr hc he => exact .of_silent he.computes.silent
termination_by structural st

theorem BlockCode.lines (ss : List Stmt) : ∀ {c : Context} {s s' : State} {code : List Instr},
    BlockCode c s ss code s' → [] ∉ Stmt.allPrints ss →
      LinesCode c.signatures (Stmt.allPrints ss) code := by
  intro c s s' code h hfull
  cases h with
  | nil => exact .nil
  | cons hs hss =>
    obtain ⟨hfirst, hrest⟩ := full_append.1 hfull
    exact (StmtCode.lines _ hs hfirst).append (BlockCode.lines _ hss hrest)
termination_by structural ss

end

/-- The code of the statements at top level holds a line for every print statement there. -/
theorem TopCode.lines {p : Program} (h : TopCode c s p code s')
    (hfull : [] ∉ p.flatMap Stmt.prints) :
    LinesCode c.signatures (p.flatMap Stmt.prints) code := by
  induction h with
  | nil => exact LinesCode.nil.then rfl
  | @function _ _ st _ _ hf _ ih =>
    have hst : st.prints = [] := by cases st <;> first | rfl | cases hf
    rw [List.flatMap_cons, hst] at hfull ⊢
    exact ih hfull
  | cons _ hs _ ih =>
    obtain ⟨hfirst, hrest⟩ := full_append.1 hfull
    exact (hs.lines _ hfirst).append (ih hrest)

/-- The code of functions holds a line for every print statement in their bodies. -/
theorem RegionsCode.lines {p : Program} {infos : List FunctionInfo}
    (h : RegionsCode c s p code infos s') (hfull : [] ∉ p.flatMap Stmt.bodyPrints) :
    LinesCode c.signatures (p.flatMap Stmt.bodyPrints) code := by
  induction h with
  | nil => exact .nil
  | function _ hb _ ih =>
    obtain ⟨hbody, hrest⟩ := full_append.1 hfull
    exact (((LinesCode.nil.then rfl).append (hb.lines _ hbody)).then rfl).append (ih hrest)
  | @other _ _ st _ _ _ hf _ ih =>
    have hst : st.bodyPrints = [] := by cases st <;> first | rfl | cases hf
    rw [List.flatMap_cons, hst] at hfull ⊢
    exact ih hfull

end Lowering

/-- The code of a program holds a line for every print statement of the program. -/
theorem Program.lines {p : Program} {code : Code} (hl : p.lower = .ok code)
    (hfull : [] ∉ p.prints) : LinesCode (signatures p) p.prints code.instrs := by
  obtain ⟨top, regions, s₁, s₂, ht, hr, hcode⟩ := Program.exists_of_lower hl
  obtain ⟨htop, hbodies⟩ := full_append.1 hfull
  rw [hcode]
  exact (ht.lines htop).append (hr.lines hbodies)

/-! ### Analysis -/

namespace Analysis

/-- Nothing is asked of states. -/
theorem lasting_true : Lasting (fun _ => True) fun _ => True :=
  ⟨fun _ _ => trivial, fun _ _ _ => trivial⟩

theorem takes_true {α : Type} (x : Analyze α) : Takes (fun _ => True) x fun _ => True :=
  fun _ _ => ⟨trivial, trivial⟩

theorem takes_printed_ne_nil : ∀ {es : List Expr}, es ≠ [] →
    Takes (fun _ => True) (printed es) fun vs => vs ≠ []
  | [], h => absurd rfl h
  | _ :: _, _ => .bind (takes_true _) fun _ _ => .bind (takes_true _) fun _ _ =>
      .bind (takes_true _) fun _ _ => .pure (List.cons_ne_nil _ _)

theorem takes_assignment_full (loc : Loc) (x : Name) (sub : Option Subscript) (value : Expr) :
    Takes (fun _ => True) (assignment loc x sub value) fun st => [] ∉ st.prints := by
  refine .bind (takes_true _) fun _ _ => .bind (takes_true _) fun r _ => ?_
  rcases r with ⟨x, - | ⟨id, symbol⟩⟩
  · exact .bind (takes_true _) fun _ _ => .pure List.not_mem_nil
  · exact .bind (takes_true _) fun _ _ => .bind (takes_true _) fun _ _ =>
      .bind (takes_true _) fun _ _ => .pure List.not_mem_nil

mutual

/-- A statement that was read prints something in every print statement, and analysis takes none of
that away. -/
theorem takes_stmt_full {N : String → Prop} : ∀ (top : Bool) (st : Stmt), st.IsRead N →
    Takes (fun _ => True) (stmt top st) fun st => [] ∉ st.prints
  | _, .decl _ _ _ _, _ => .bind (takes_true _) fun _ _ => .bind (takes_true _) fun _ _ =>
      .bind (takes_true _) fun _ _ => .pure List.not_mem_nil
  | _, .assign _ _ _ _, _ => takes_assignment_full _ _ _ _
  | _, .function _ _ _ _ _, _ => .ite
      (lasting_true.takes_inScope (.bind (takes_true _) fun _ _ => .bind (takes_true _) fun _ _ =>
        .pure List.not_mem_nil))
      (.bind (takes_true _) fun _ _ => .pure List.not_mem_nil)
  | _, .cond _ _ body none, h => .bind (takes_true _) fun _ _ =>
      .bind (lasting_true.takes_inScope (takes_stmts_full body h.2)) fun _ hb => .pure hb
  | _, .cond _ _ body (some orElse), h => .bind (takes_true _) fun _ _ =>
      .bind (lasting_true.takes_inScope (takes_stmts_full body h.2.1)) fun _ hb =>
        .bind (lasting_true.takes_inScope (takes_stmts_full orElse h.2.2)) fun _ ho =>
          .pure (full_append.2 ⟨hb, ho⟩)
  | _, .while _ _ body, h => .bind (takes_true _) fun _ _ =>
      .bind (lasting_true.takes_inLoop (lasting_true.takes_inScope (takes_stmts_full body h.2)))
        fun _ hb => .pure hb
  | _, .repeat _ _ body, h => .bind (takes_true _) fun _ _ => .bind (takes_true _) fun _ _ =>
      .bind (lasting_true.takes_inLoop (lasting_true.takes_inScope (takes_stmts_full body h.2)))
        fun _ hb => .pure hb
  | _, .for _ init _ update body, h => lasting_true.takes_inScope <|
      .bind (takes_stmt_full false init h.1.2) fun _ hi => .bind (takes_true _) fun _ _ =>
        .bind (takes_stmt_full false update h.2.2.1.2.2) fun _ hu =>
          .bind (lasting_true.takes_inLoop (lasting_true.takes_inScope
            (takes_stmts_full body h.2.2.2))) fun _ hb =>
              .pure (full_append.2 ⟨full_append.2 ⟨hi, hb⟩, hu⟩)
  | _, .break _, _ | _, .continue _, _ => .bind (takes_true _) fun _ _ => .pure List.not_mem_nil
  | _, .return _ _, _ => .bind (takes_true _) fun _ _ => .bind (takes_true _) fun _ _ =>
      .pure List.not_mem_nil
  | _, .print _ _, h => .bind (takes_printed_ne_nil h.2) fun _ hvs =>
      .pure fun hmem => hvs (List.mem_singleton.1 hmem).symm
  | _, .input _ _, _ => .bind (takes_true _) fun _ _ => .pure List.not_mem_nil
  | _, .expr _ _, _ => .bind (takes_true _) fun _ _ => .pure List.not_mem_nil

theorem takes_stmts_full {N : String → Prop} : ∀ ss : List Stmt, Stmt.AreRead N ss →
    Takes (fun _ => True) (stmts ss) fun ss => [] ∉ Stmt.allPrints ss
  | [], _ => .pure List.not_mem_nil
  | st :: ss, h => .bind (takes_stmt_full false st h.1) fun _ hs =>
      .bind (takes_stmts_full ss h.2) fun _ hss => .pure (full_append.2 ⟨hs, hss⟩)

end

theorem bodyPrints_eq_nil {st : Stmt} (h : Program.functionNames [st] = []) :
    st.bodyPrints = [] := by
  cases st <;> first | rfl | cases h

/-- So it is in the body of a function at top level. -/
theorem takes_body_full {N : String → Prop} {st : Stmt} (h : st.IsRead N) :
    Takes (fun _ => True) (stmt true st) fun st => [] ∉ st.bodyPrints := by
  by_cases hf : Program.functionNames [st] = []
  · refine fun s _ => ⟨?_, trivial⟩
    change [] ∉ ((stmt true st).run s).1.bodyPrints
    rw [bodyPrints_eq_nil ((functionNames_stmt st s).trans hf)]
    exact List.not_mem_nil
  · cases st with
    | function loc f returns params body =>
      exact lasting_true.takes_inScope (.bind (takes_true _) fun _ _ =>
        .bind (lasting_true.takes_inFunction (takes_stmts_full body h.2.1)) fun _ hb => .pure hb)
    | _ => exact absurd rfl hf

theorem takes_topLevel_full {N : String → Prop} : ∀ p : Program, Stmt.AreRead N p →
    Takes (fun _ => True) (topLevel p) fun p => [] ∉ p.prints
  | [], _ => .pure List.not_mem_nil
  | st :: p, h => by
    have hst : Takes (fun _ => True) (stmt true st) fun st =>
        [] ∉ st.prints ∧ [] ∉ st.bodyPrints := fun s hs =>
      ⟨⟨(takes_stmt_full true st h.1 s hs).1, (takes_body_full h.1 s hs).1⟩, trivial⟩
    refine .bind hst fun _ hs => .bind (takes_topLevel_full p h.2) fun _ hp => .pure ?_
    obtain ⟨hprints, hbodies⟩ := full_append.1 hp
    exact full_append.2 ⟨full_append.2 ⟨hs.1, hprints⟩, full_append.2 ⟨hs.2, hbodies⟩⟩

end Analysis

/-- A program that was read prints something in every print statement, also when it is annotated. -/
theorem Program.full_analyze {p : Program} (h : Stmt.AreSource p) (settings : SuggestionSettings) :
    [] ∉ (p.analyze settings).program.prints :=
  (Takes.bind (takes_true (hoist p)) (fun _ _ => takes_topLevel_full p h) _ trivial).1

end NumericScript
