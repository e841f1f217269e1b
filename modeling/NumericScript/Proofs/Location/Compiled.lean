import NumericScript.Compile
import NumericScript.Proofs.Location.Analysis

/-! # Places of diagnostics

What lowering cannot do it says of the line of a statement or of a call, so all stages report at
places of the source text.

* `Lowering.Takes`: steps of lowering that report at lines of the tree.
* `compile_located`: the diagnostics of compilation point into the source text, but for those of
  empty rows of matrices. -/

namespace NumericScript

/-- A line in which there is a place with the property `L`. -/
def OnLine (L : Loc → Prop) (line : Nat) : Prop := ∃ column, L ⟨line, column⟩

theorem OnLine.of_loc {L : Loc → Prop} {p : Loc} (h : L p) : OnLine L p.line := ⟨p.column, h⟩

namespace Lowering

/-- A step of lowering that stays on lines with the property `L`, and reports at such. -/
def Takes {α : Type} (L : Loc → Prop) (x : Lower α) : Prop :=
  ∀ s, OnLine L s.line → match x.run s with
    | .ok (_, s') => OnLine L s'.line
    | .error e => OnLine L e.line

variable {L : Loc → Prop} {c : Context}

namespace Takes

variable {α β : Type} {x y : Lower α}

theorem pure (a : α) : Takes L (Pure.pure a : Lower α) := fun _ hs => hs

theorem throw {e : CodeError} (h : OnLine L e.line) : Takes L (throw e : Lower α) := fun _ _ => h

theorem bind {f : α → Lower β} (hx : Takes L x) (hf : ∀ a, Takes L (f a)) :
    Takes L (x >>= f) := by
  intro s hs
  have h := hx s hs
  rw [StateT.run_bind]
  rcases hrun : x.run s with e | ⟨a, s'⟩
  · rw [hrun] at h
    exact h
  · rw [hrun] at h
    exact hf a s' h

theorem ite {p : Prop} [Decidable p] (hx : Takes L x) (hy : Takes L y) :
    Takes L (if p then x else y) := by
  split
  · exact hx
  · exact hy

end Takes

/-! ### Operands and calls -/

theorem takes_freshTemp : Takes L freshTemp := fun _ hs => hs

theorem takes_freshLabel : Takes L freshLabel := fun _ hs => hs

theorem takes_one (op : Op) : Takes L (one op) := fun _ hs => hs

theorem takes_atLine {p : Loc} (h : L p) : Takes L (atLine p.line) := fun _ _ => .of_loc h

theorem takes_slotOf (x : Name) : Takes L (slotOf x) := by
  unfold slotOf
  cases x.binding with
  | some b => exact .pure _
  | none => exact fun _ hs => hs

theorem takes_widen (a : Operand) (found expected : Ty) : Takes L (widen a found expected) := by
  refine .ite ?_ (.pure _)
  split
  · exact .pure _
  · exact .bind takes_freshTemp fun _ => .bind (takes_one _) fun _ => .pure _

theorem takes_pinIf (changes : Bool) (a : Operand) : Takes L (pinIf changes a) := by
  refine .ite ?_ (.pure _)
  unfold pin
  split
  · exact .bind takes_freshTemp fun _ => .bind (takes_one _) fun _ => .pure _
  · exact .pure _

theorem takes_callee (f : String) {line : Nat} (h : OnLine L line) : Takes L (callee c f line) := by
  unfold callee
  split
  · exact .pure _
  · split
    · exact .pure _
    · exact .throw h

theorem takes_takeResult (wanted : Bool) (returns : Ty) : Takes L (takeResult wanted returns) :=
  .ite (.pure _) (.bind takes_freshTemp fun _ => .bind (takes_one _) fun _ => .pure _)

/-! ### Expressions -/

mutual

theorem takes_expr : ∀ e : Expr, e.Located L → Takes L (expr c e)
  | .int _ _, _ | .float _ _, _ | .str _ _, _ | .bool _ _, _ => .pure _
  | .name _ x, _ => .bind (takes_slotOf x) fun _ => .pure _
  | .binary _ _ l r, h => .bind (takes_expr l h.2.1) fun _ => .bind (takes_pinIf _ _) fun _ =>
      .bind (takes_expr r h.2.2) fun _ => .bind takes_freshTemp fun _ => .bind (takes_one _)
        fun _ => .pure _
  | .unary _ _ e, h => .bind (takes_expr e h.2) fun _ => .bind takes_freshTemp fun _ =>
      .bind (takes_one _) fun _ => .pure _
  | .call m f args, h => by
    have hline : OnLine L m.loc.line := .of_loc h.1
    refine .bind (takes_callee f hline) fun r => .bind (takes_arguments _ args h.2) fun _ =>
      .bind (takes_one _) fun _ => .bind (takes_takeResult _ _) fun result => ?_
    rcases result with ⟨take, - | result⟩
    · exact .throw hline
    · exact .pure _
  | .array _ items, h => .bind takes_freshTemp fun _ => .bind (takes_one _) fun _ =>
      .bind (takes_elements _ _ _ items h.2) fun _ => .pure _
  | .matrix _ rows, h => .bind takes_freshTemp fun _ => .bind (takes_one _) fun _ =>
      .bind (takes_matrixRows _ _ rows h.2) fun _ => .pure _
  | .index _ base row none, h => .bind (takes_expr base h.2.1) fun _ =>
      .bind (takes_pinIf _ _) fun _ => .bind (takes_expr row h.2.2) fun _ =>
        .bind takes_freshTemp fun _ => .bind (takes_one _) fun _ => .pure _
  | .index _ base row (some col), h => .bind (takes_expr base h.2.1) fun _ =>
      .bind (takes_pinIf _ _) fun _ => .bind (takes_expr row h.2.2.1) fun _ =>
        .bind (takes_pinIf _ _) fun _ => .bind (takes_expr col h.2.2.2) fun _ =>
          .bind takes_freshTemp fun _ => .bind (takes_one _) fun _ => .pure _

theorem takes_arguments : ∀ (params : List Ty) (es : List Expr), Expr.AllLocated L es →
    Takes L (arguments c params es)
  | _, [], _ => .pure _
  | params, e :: es, h => .bind (takes_expr e h.1) fun _ => .bind (takes_widen _ _ _) fun _ =>
      .bind (takes_one _) fun _ => .bind (takes_arguments params.tail es h.2) fun _ => .pure _

theorem takes_elements : ∀ (array : Place) (element : Ty) (index : Nat) (es : List Expr),
    Expr.AllLocated L es → Takes L (elements c array element index es)
  | _, _, _, [], _ => .pure _
  | array, element, index, e :: es, h => .bind (takes_expr e h.1) fun _ =>
      .bind (takes_widen _ _ _) fun _ => .bind (takes_one _) fun _ =>
        .bind (takes_elements array element (index + 1) es h.2) fun _ => .pure _

theorem takes_entries : ∀ (matrix : Place) (row col : Nat) (es : List Expr),
    Expr.AllLocated L es → Takes L (entries c matrix row col es)
  | _, _, _, [], _ => .pure _
  | matrix, row, col, e :: es, h => .bind (takes_expr e h.1) fun _ =>
      .bind (takes_widen _ _ _) fun _ => .bind (takes_one _) fun _ =>
        .bind (takes_entries matrix row (col + 1) es h.2) fun _ => .pure _

theorem takes_matrixRows : ∀ (matrix : Place) (row : Nat) (rows : List (List Expr)),
    Expr.AllLocatedRows L rows → Takes L (matrixRows c matrix row rows)
  | _, _, [], _ => .pure _
  | matrix, row, es :: rows, h => .bind (takes_entries matrix row 0 es h.1) fun _ =>
      .bind (takes_matrixRows matrix (row + 1) rows h.2) fun _ => .pure _

end

/-! ### Statements -/

theorem takes_widened {e : Expr} (h : e.Located L) (expected : Ty) :
    Takes L (widened c e expected) :=
  .bind (takes_expr e h) fun _ => .bind (takes_widen _ _ _) fun _ => .pure _

theorem takes_setVariable (x : Name) {value : Expr} (h : value.Located L) :
    Takes L (setVariable c x value) :=
  .bind (takes_slotOf x) fun _ => .bind (takes_widened h _) fun _ => .bind (takes_one _) fun _ =>
    .pure _

theorem takes_setElement (x : Name) {s : Subscript} (hs : Subscript.LocatedOptional L (some s))
    {value : Expr} (h : value.Located L) : Takes L (setElement c x s value) := by
  obtain ⟨row, col⟩ := s
  have hend : ∀ (f : List Instr × Operand → Lower (List Instr)), (∀ a, Takes L (f a)) →
      ∀ expected, Takes L (widened c value expected >>= f) :=
    fun _ hf _ => .bind (takes_widened h _) hf
  refine .bind (takes_slotOf x) fun _ => .bind (takes_expr row hs.1) fun _ =>
    .bind (takes_pinIf _ _) fun _ => ?_
  cases col with
  | none => exact .bind (.pure _) fun _ => hend _ (fun _ => .bind (takes_one _) fun _ => .pure _) _
  | some col =>
    exact .bind (takes_expr col hs.2) fun _ => .bind (takes_pinIf _ _) fun _ => .bind (.pure _)
      fun _ => hend _ (fun _ => .bind (takes_one _) fun _ => .pure _) _

theorem takes_prints (es : List Expr) (h : Expr.AllLocated L es) : Takes L (prints c es) := by
  induction es with
  | nil => exact .pure _
  | cons e es ih =>
    exact .bind (takes_expr e h.1) fun _ => .bind (takes_one _) fun _ => .bind (ih h.2) fun _ =>
      .pure _

theorem takes_loopControl (keyword : Keyword) (target : LoopLabels → Label) {p : Loc} (h : L p) :
    Takes L (loopControl c keyword target p.line) := by
  unfold loopControl
  split
  · exact takes_one _
  · exact .throw (.of_loc h)

theorem takes_callStatement (f : String) {args : List Expr} (h : Expr.AllLocated L args) {p : Loc}
    (hp : L p) : Takes L (callStatement c f args p.line) :=
  .bind (takes_callee f (.of_loc hp)) fun _ => .bind (takes_arguments _ args h) fun _ =>
    .bind (takes_one _) fun _ => .pure _

mutual

theorem takes_stmt : ∀ (c : Context) (st : Stmt), st.Located L → Takes L (stmt c st)
  | _, .decl _ x _ _, h => .bind (takes_atLine h.1) fun _ => takes_setVariable x h.2
  | _, .assign _ x none _, h => .bind (takes_atLine h.1) fun _ => takes_setVariable x h.2.2
  | _, .assign _ x (some _) _, h => .bind (takes_atLine h.1) fun _ => takes_setElement x h.2.1 h.2.2
  | _, .function _ _ _ _ _, h => .bind (takes_atLine h.1) fun _ => .pure _
  | c, .cond _ e body none, h => .bind (takes_atLine h.1) fun _ => .bind (takes_expr e h.2.1)
      fun _ => .bind takes_freshLabel fun _ => .bind (takes_one _) fun _ =>
        .bind (takes_block c body h.2.2) fun _ => .bind (takes_one _) fun _ => .pure _
  | c, .cond _ e body (some orElse), h => .bind (takes_atLine h.1) fun _ =>
      .bind (takes_expr e h.2.1) fun _ => .bind takes_freshLabel fun _ => .bind takes_freshLabel
        fun _ => .bind (takes_one _) fun _ => .bind (takes_block c body h.2.2.1) fun _ =>
          .bind (takes_one _) fun _ => .bind (takes_one _) fun _ =>
            .bind (takes_block c orElse h.2.2.2) fun _ => .bind (takes_one _) fun _ => .pure _
  | _, .while _ e body, h => .bind (takes_atLine h.1) fun _ => .bind takes_freshLabel fun _ =>
      .bind takes_freshLabel fun _ => .bind (takes_one _) fun _ => .bind (takes_expr e h.2.1)
        fun _ => .bind (takes_one _) fun _ => .bind (takes_block _ body h.2.2) fun _ =>
          .bind (takes_one _) fun _ => .bind (takes_one _) fun _ => .pure _
  | _, .repeat _ count body, h => .bind (takes_atLine h.1) fun _ => .bind (takes_expr count h.2.1)
      fun _ => .bind takes_freshTemp fun _ => .bind (takes_one _) fun _ => .bind takes_freshTemp
        fun _ => .bind (takes_one _) fun _ => .bind takes_freshLabel fun _ => .bind takes_freshLabel
          fun _ => .bind takes_freshLabel fun _ => .bind (takes_one _) fun _ =>
            .bind takes_freshTemp fun _ => .bind (takes_one _) fun _ => .bind (takes_one _)
              fun _ => .bind (takes_block _ body h.2.2) fun _ => .bind (takes_atLine h.1) fun _ =>
                .bind (takes_one _) fun _ => .bind (takes_one _) fun _ => .bind (takes_one _)
                  fun _ => .bind (takes_one _) fun _ => .pure _
  | c, .for _ init e update body, h => .bind (takes_atLine h.1) fun _ =>
      .bind (takes_stmt c init h.2.1) fun _ => .bind (takes_atLine h.1) fun _ =>
        .bind takes_freshLabel fun _ => .bind takes_freshLabel fun _ => .bind takes_freshLabel
          fun _ => .bind (takes_one _) fun _ => .bind (takes_expr e h.2.2.1) fun _ =>
            .bind (takes_one _) fun _ => .bind (takes_block _ body h.2.2.2.2) fun _ =>
              .bind (takes_atLine h.1) fun _ => .bind (takes_one _) fun _ =>
                .bind (takes_stmt c update h.2.2.2.1) fun _ => .bind (takes_atLine h.1) fun _ =>
                  .bind (takes_one _) fun _ => .bind (takes_one _) fun _ => .pure _
  | _, .break _, h | _, .continue _, h => .bind (takes_atLine h) fun _ => takes_loopControl _ _ h
  | _, .return _ none, h => .bind (takes_atLine h.1) fun _ => takes_one _
  | _, .return _ (some _), h => .bind (takes_atLine h.1) fun _ =>
      .bind (takes_widened h.2 _) fun _ => .bind (takes_one _) fun _ => .pure _
  | _, .print _ values, h => .bind (takes_atLine h.1) fun _ => takes_prints values h.2
  | _, .input _ x, h => .bind (takes_atLine h) fun _ => .bind (takes_slotOf x) fun _ => takes_one _
  | c, .expr loc e, h => by
    cases e with
    | call m f args =>
      exact .bind (takes_atLine h.1) fun _ => takes_callStatement f h.2.2 h.2.1
    | _ => exact .bind (takes_atLine h.1) fun _ => .bind (takes_expr _ h.2) fun _ => .pure _

theorem takes_block : ∀ (c : Context) (ss : List Stmt), Stmt.AllLocated L ss →
    Takes L (block c ss)
  | _, [], _ => .pure _
  | c, s :: ss, h => .bind (takes_stmt c s h.1) fun _ => .bind (takes_block c ss h.2) fun _ =>
      .pure _

end

/-! ### Programs -/

/-- A step of lowering that reports at lines with the property `L`, whatever line it starts on. -/
def Reports {α : Type} (L : Loc → Prop) (x : Lower α) : Prop :=
  ∀ s e, x.run s = .error e → OnLine L e.line

namespace Reports

variable {α β : Type} {x : Lower α}

theorem pure (a : α) : Reports L (Pure.pure a : Lower α) := nofun

theorem bind {f : α → Lower β} (hx : Reports L x) (hf : ∀ a, Reports L (f a)) :
    Reports L (x >>= f) := by
  intro s e he
  rw [StateT.run_bind] at he
  rcases hrun : x.run s with e' | ⟨a, s'⟩
  · rw [hrun] at he
    cases he
    exact hx s e hrun
  · rw [hrun] at he
    exact hf a s' e he

/-- Wherever lowering was before, it goes to a line of the tree first. -/
theorem atLine {p : Loc} (hp : L p) {f : Unit → Lower α} (hf : Takes L (f ())) :
    Reports L (atLine p.line >>= f) := by
  intro s e he
  have h := hf { s with line := p.line } (.of_loc hp)
  rw [show (f ()).run _ = .error e from he] at h
  exact h

end Reports

theorem reports_stmt {st : Stmt} (h : st.Located L) : Reports L (stmt c st) := by
  intro s e he
  have hline : (stmt c st).run s = (stmt c st).run { s with line := st.loc.line } := by
    cases st with
    | assign loc x sub value => cases sub <;> rfl
    | cond loc e body orElse => cases orElse <;> rfl
    | «return» loc value => cases value <;> rfl
    | expr loc e => cases e <;> rfl
    | _ => rfl
  have hst := takes_stmt c st h { s with line := st.loc.line } (.of_loc h.loc)
  rw [← hline, he] at hst
  exact hst

theorem reports_topLevel : ∀ p : Program, Stmt.AllLocated L p → Reports L (topLevel c p)
  | [], _ => nofun
  | st :: rest, h => by
    have hrest := reports_topLevel rest h.2
    cases st with
    | function => exact hrest
    | _ => exact .bind (reports_stmt h.1) fun _ => .bind hrest fun _ => .pure _

theorem takes_parameters : ∀ ps : List Param, Takes L (parameters ps)
  | [] => .pure _
  | p :: ps => .bind (takes_slotOf p.name) fun _ => .bind (takes_parameters ps) fun _ => .pure _

theorem reports_function {p : Loc} (hp : L p) (f : String) (returns : Ty) (params : List Param)
    {body : List Stmt} (hb : Stmt.AllLocated L body) :
    Reports L (function c p f returns params body) :=
  .atLine hp (.bind (takes_one _) fun _ => .bind (takes_parameters params) fun _ =>
    .bind (takes_block _ body hb) fun _ => .bind (takes_atLine hp) fun _ => .bind (takes_one _)
      fun _ => .pure _)

theorem reports_functions : ∀ p : Program, Stmt.AllLocated L p → Reports L (functions c p)
  | [], _ => .pure _
  | st :: rest, h => by
    have hrest := reports_functions rest h.2
    cases st with
    | function p f returns params body =>
      exact .bind (reports_function h.1.1 f returns params h.1.2.2) fun _ =>
        .bind hrest fun _ => .pure _
    | _ => exact hrest

end Lowering

open Lowering

/-- Lowering reports at a line of the program. -/
theorem Program.onLine_of_lower {L : Loc → Prop} {p : Program} (h : Stmt.AllLocated L p)
    {e : CodeError} (he : p.lower = .error e) : OnLine L e.line := by
  have hprogram : Reports L (do
      let top ← topLevel ⟨signatures p, .unknown, none⟩ p
      let regions ← functions ⟨signatures p, .unknown, none⟩ p
      pure (⟨top ++ regions.1, regions.2⟩ : Code)) :=
    .bind (reports_topLevel p h) fun _ => .bind (reports_functions p h) fun _ => .pure _
  unfold lower at he
  dsimp only at he
  generalize hx : (StateT.run _ _ : Except CodeError (Code × State)) = x at he
  cases x with
  | error e' =>
    cases he
    exact hprogram ⟨0, 0, 0⟩ e hx
  | ok r => cases he

/-! ### Compilation -/

/-- A diagnostic with a place in the source text, or one of an empty row of a matrix, which has
line zero and column zero. -/
def Diagnostic.Located (source : String) (d : Diagnostic) : Prop :=
  Loc.IsIn source ⟨d.line, d.column⟩ ∨
    d.line = 0 ∧ d.column = 0 ∧
      ∃ cols row, d.message = (SemanticError.raggedMatrix cols row 0).message

/-- The line that is attached to a diagnostic does not change its place. -/
theorem Diagnostic.Located.attach {source : String} {d : Diagnostic} (h : d.Located source)
    (lines : List String) : (d.attach lines).Located source := by
  unfold Diagnostic.attach
  split <;> exact h

theorem compileStages_located (source : String) (settings : Settings) :
    ∀ d ∈ (compileStages source settings).diagnostics, d.Located source := by
  have hscan := Token.located_scan source
  obtain ⟨hparsed, hread⟩ := Program.located_parse (Scan.tokens_ofChars_ne_nil _ _) hscan.tokens
  obtain ⟨hanalysed, hsemantic⟩ := Program.located_analyze hparsed settings.suggestions
  unfold compileStages
  dsimp only
  split
  · exact List.forall_mem_map.2 fun r hr => .inl (hscan.errors r hr)
  split
  · exact List.forall_mem_map.2 fun r hr => .inl (hread r hr)
  have hreports : ∀ d ∈ ((Program.parse (Token.scan source).tokens).program.analyze
      settings.suggestions).reports.map Diagnostic.ofSemantic, d.Located source := by
    refine List.forall_mem_map.2 fun r hr => (hsemantic r hr).imp id ?_
    rintro ⟨cols, row, hcause, hloc⟩
    refine ⟨?_, ?_, cols, row, ?_⟩
    · rw [Diagnostic.ofSemantic, hloc]
    · rw [Diagnostic.ofSemantic, hloc]
    · rw [Diagnostic.ofSemantic, hcause]
  split
  · exact hreports
  unfold finishCompilation
  split
  · rename_i e he
    obtain ⟨column, hline⟩ := Program.onLine_of_lower hanalysed he
    exact List.forall_mem_append.2 ⟨hreports, List.forall_mem_singleton.2 (.inl hline.first)⟩
  · exact hreports

/-- Every diagnostic of compilation points into the source text, but for those of empty rows of
matrices. -/
theorem compile_located (source : String) (settings : Settings) :
    ∀ d ∈ (compile source settings).diagnostics, d.Located source :=
  List.forall_mem_map.2 fun d hd => (compileStages_located source settings d hd).attach _

/-- A variable that is not declared is reported where its name stands. -/
theorem compile_located_undeclared : ∃ d ∈ (compile "int n = 1\nprint n + x\n" {}).diagnostics,
    d.line = 2 ∧ d.column = 11 ∧ d.Located "int n = 1\nprint n + x\n" := by
  have hplaces : (compile "int n = 1\nprint n + x\n" {}).diagnostics.map
      (fun d => (d.line, d.column)) = [(2, 11)] := by decide +kernel
  obtain ⟨d, hd, hplace⟩ := List.mem_map.1 (hplaces ▸ List.mem_singleton_self (2, 11))
  rw [Prod.mk.injEq] at hplace
  exact ⟨d, hd, hplace.1, hplace.2, compile_located _ {} d hd⟩

/-- A matrix whose second row is empty is reported at line zero. -/
theorem not_compile_located_row : ¬ ∀ source settings,
    ∀ d ∈ (compile source settings).diagnostics, Loc.IsIn source ⟨d.line, d.column⟩ := by
  intro h
  have hlines : (compile "matrix m = [[1], []]\nprint m\n" {}).diagnostics.map (·.line) = [0] := by
    decide +kernel
  obtain ⟨d, hd, hline⟩ := List.mem_map.1 (hlines ▸ List.mem_singleton_self 0)
  have hpos := (h _ _ d hd).line.1
  rw [hline] at hpos
  cases hpos

end NumericScript
