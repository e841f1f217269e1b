import NumericScript.Analysis

/-! # Analysing an analysed program

Analysis looks at the text of names, at the places of parts of a program and at types that it finds
itself, and never at an annotation.  What it writes into a tree it would write there again.  So an
analysed program that is analysed once more gives the same symbols and the same reports, and stays
as it is.

* `Binds`: what becomes of a name; `exists_declare`, `exists_resolve`: it hangs on the text of the
  name.
* `expr_again`, `stmt_again`: what analysis makes of a part of a program, it makes of it again.
* `Program.analyze_analyze`: analysis of an analysed program. -/

namespace NumericScript

namespace Analysis

section

variable {α β : Type}

theorem bind_apply (x : Analyze α) (f : α → Analyze β) (s : State) :
    (x >>= f) s = f (x s).1 (x s).2 := rfl

theorem pure_apply (a : α) (s : State) : (pure a : Analyze α) s = (a, s) := rfl

end

/-! ### Names -/

/-- A name is left as it is, or bound if it has no binding yet. -/
def Binds (g : Name → Name) : Prop := g = id ∨ ∃ b, g = fun x => x.bind b

theorem Binds.text {g : Name → Name} (hg : Binds g) (x : Name) : (g x).text = x.text := by
  obtain rfl | ⟨b, rfl⟩ := hg <;> rfl

theorem Binds.twice {g : Name → Name} (hg : Binds g) (x : Name) : g (g x) = g x := by
  obtain rfl | ⟨b, rfl⟩ := hg
  · rfl
  · exact Name.bind_bind x b b

/-- A declaration looks at the text of the name that it may bind. -/
theorem exists_declare (text : String) (ty : Ty) (kind : SymbolKind) (loc : Loc) (s : State) :
    ∃ g, Binds g ∧ ∃ s', ∀ x : Name, x.text = text → declare x ty kind loc s = (g x, s') := by
  let storage : Storage := if s.scopes.isGlobal then .global else .local
  let r := newSlot text storage s
  -- Once there is a slot, only the outcome of the declaration decides.
  cases h : r.2.scopes.declare ⟨text, kind, ty, 0, loc, true, false, r.1, storage⟩ with
  | ok p =>
    refine ⟨fun x => x.bind ⟨r.1, ty, storage⟩, .inr ⟨_, rfl⟩, { r.2 with scopes := p.2 }, ?_⟩
    rintro x rfl
    unfold declare
    simp only [bind_apply]
    generalize hd : Scopes.declare _ _ = outcome
    cases h.symm.trans hd
    rfl
  | error existing =>
    let line := ((r.2.scopes.symbol? existing).map (·.loc.line)).getD 0
    refine ⟨id, .inl rfl, (report (.redeclaration text line) loc r.2).2, ?_⟩
    rintro x rfl
    unfold declare
    simp only [bind_apply]
    generalize hd : Scopes.declare _ _ = outcome
    cases h.symm.trans hd
    rfl

theorem declare_again (x : Name) (ty : Ty) (kind : SymbolKind) (loc : Loc) (s : State) :
    declare (declare x ty kind loc s).1 ty kind loc s = declare x ty kind loc s := by
  obtain ⟨g, hg, s', h⟩ := exists_declare x.text ty kind loc s
  rw [h x rfl, h (g x) (hg.text x), hg.twice]

theorem text_declare (x : Name) (ty : Ty) (kind : SymbolKind) (loc : Loc) (s : State) :
    (declare x ty kind loc s).1.text = x.text := by
  obtain ⟨g, hg, s', h⟩ := exists_declare x.text ty kind loc s
  rw [h x rfl, hg.text]

theorem resolve_of_some {x : Name} {loc : Loc} {read : Bool} {s : State} {p : Nat × Symbol}
    (h : s.scopes.resolve? x.text = some p) : resolve x loc read s =
      (if p.2.isFunction then do
          report (.notAVariable x.text) loc
          pure (x, none)
        else do
          if read then modifyScopes (·.update p.1 fun s => { s with used := true })
          pure (x.bind p.2.binding, some p) : Analyze (Name × Option (Nat × Symbol))) s := by
  unfold resolve
  simp only [bind_apply]
  generalize hfound : Scopes.resolve? _ _ = found
  cases h.symm.trans hfound
  rfl

/-- Looking up a variable looks at the text of the name that it may bind. -/
theorem exists_resolve (text : String) (loc : Loc) (read : Bool) (s : State) :
    ∃ g, Binds g ∧ ∃ found s', ∀ x : Name, x.text = text →
      resolve x loc read s = ((g x, found), s') := by
  cases h : s.scopes.resolve? text with
  | none =>
    refine ⟨id, .inl rfl, none, (reportUndeclared text loc s).2, ?_⟩
    rintro x rfl
    unfold resolve
    simp only [bind_apply]
    generalize hfound : Scopes.resolve? _ _ = found
    cases h.symm.trans hfound
    rfl
  | some p =>
    cases hf : p.2.isFunction with
    | true =>
      refine ⟨id, .inl rfl, none, (report (.notAVariable text) loc s).2, ?_⟩
      rintro x rfl
      rw [resolve_of_some h]
      simp only [hf, if_true]
      rfl
    | false =>
      refine ⟨fun x => x.bind p.2.binding, .inr ⟨_, rfl⟩, some p,
        (resolve ⟨text, none⟩ loc read s).2, ?_⟩
      rintro x rfl
      rw [resolve_of_some h, resolve_of_some (x := ⟨x.text, none⟩) h]
      simp only [hf, Bool.false_eq_true, if_false]
      cases read <;> rfl

theorem resolve_again (x : Name) (loc : Loc) (read : Bool) (s : State) :
    resolve (resolve x loc read s).1.1 loc read s = resolve x loc read s := by
  obtain ⟨g, hg, found, s', h⟩ := exists_resolve x.text loc read s
  rw [h x rfl, h (g x) (hg.text x), hg.twice]

/-! ### Expressions -/

theorem loc_expr (e : Expr) (s : State) : (expr e s).1.1.loc = e.loc := by
  cases e with
  | index m base row col => cases col <;> simp only [expr, bind_apply] <;> rfl
  | _ => simp only [expr, bind_apply] <;> rfl

theorem length_entries (es : List Expr) (s : State) : (entries es s).1.length = es.length := by
  induction es generalizing s with
  | nil => rfl
  | cons e es ih => simp only [entries, bind_apply, pure_apply, List.length_cons, ih]

theorem checkRow_entries (cols row : Nat) (es : List Expr) (s : State) :
    checkRow cols row (entries es s).1 = checkRow cols row es := by
  cases es with
  | nil => rfl
  | cons e es =>
    simp only [checkRow, entries, bind_apply, pure_apply, List.length_cons, length_entries,
      List.head?_cons, Option.map_some, loc_expr]

theorem length_matrixRows (cols row : Nat) (rows : List (List Expr)) (s : State) :
    (matrixRows cols row rows s).1.length = rows.length := by
  induction rows generalizing row s with
  | nil => rfl
  | cons es rows ih => simp only [matrixRows, bind_apply, pure_apply, List.length_cons, ih]

theorem length_headD_matrixRows (cols row : Nat) (rows : List (List Expr)) (s : State) :
    ((matrixRows cols row rows s).1.headD []).length = (rows.headD []).length := by
  cases rows with
  | nil => rfl
  | cons es rows =>
    simp only [matrixRows, bind_apply, pure_apply, List.headD_cons, length_entries]

mutual

theorem expr_again (e : Expr) (s : State) : expr (expr e s).1.1 s = expr e s := by
  cases e with
  | int m v => simp only [expr, pure_apply, Mark.annotate_annotate]
  | float m v => simp only [expr, pure_apply, Mark.annotate_annotate]
  | str m v => simp only [expr, pure_apply, Mark.annotate_annotate]
  | bool m v => simp only [expr, pure_apply, Mark.annotate_annotate]
  | name m x =>
    simp only [expr, bind_apply, pure_apply, Mark.annotate_annotate, Mark.annotate_loc,
      resolve_again]
  | binary m op l r =>
    simp only [expr, bind_apply, pure_apply, Mark.annotate_annotate, Mark.annotate_loc, expr_again]
  | unary m op e =>
    simp only [expr, bind_apply, pure_apply, Mark.annotate_annotate, Mark.annotate_loc, expr_again]
  | call m f args =>
    simp only [expr, bind_apply, pure_apply, Mark.annotate_annotate, Mark.annotate_loc, exprs_again]
  | array m items =>
    simp only [expr, bind_apply, pure_apply, Mark.annotate_annotate, elements_again]
  | matrix m rows =>
    simp only [expr, bind_apply, pure_apply, Mark.annotate_annotate, matrixRows_again,
      length_matrixRows, length_headD_matrixRows]
  | index m base row col =>
    cases col with
    | none =>
      simp only [expr, bind_apply, pure_apply, Mark.annotate_annotate, Mark.annotate_loc,
        expr_again]
    | some col =>
      simp only [expr, bind_apply, pure_apply, Mark.annotate_annotate, Mark.annotate_loc,
        expr_again]

theorem exprs_again (es : List Expr) (s : State) :
    exprs ((exprs es s).1.map (·.1)) s = exprs es s := by
  cases es with
  | nil => rfl
  | cons e es => simp only [exprs, bind_apply, pure_apply, List.map_cons, expr_again, exprs_again]

theorem elements_again (element : Ty) (es : List Expr) (s : State) :
    elements element (elements element es s).1.1 s = elements element es s := by
  cases es with
  | nil => rfl
  | cons e es => simp only [elements, bind_apply, pure_apply, expr_again, elements_again]

theorem entries_again (es : List Expr) (s : State) :
    entries (entries es s).1 s = entries es s := by
  cases es with
  | nil => rfl
  | cons e es => simp only [entries, bind_apply, pure_apply, expr_again, entries_again]

theorem matrixRows_again (cols row : Nat) (rows : List (List Expr)) (s : State) :
    matrixRows cols row (matrixRows cols row rows s).1 s = matrixRows cols row rows s := by
  cases rows with
  | nil => rfl
  | cons es rows =>
    simp only [matrixRows, bind_apply, pure_apply, checkRow_entries, entries_again,
      matrixRows_again]

end

theorem optional_again (e : Option Expr) (s : State) :
    optional ((optional e s).1.map (·.1)) s = optional e s := by
  cases e with
  | none => rfl
  | some e => simp only [optional, bind_apply, pure_apply, Option.map_some, expr_again]

theorem condition_again (construct : Keyword) (e : Expr) (s : State) :
    condition construct (condition construct e s).1 s = condition construct e s := by
  simp only [condition, bind_apply, pure_apply, expr_again]

theorem printed_again (es : List Expr) (s : State) : printed (printed es s).1 s = printed es s := by
  induction es generalizing s with
  | nil => rfl
  | cons e es ih => simp only [printed, bind_apply, pure_apply, expr_again, ih]

/-! ### Assignments -/

theorem subscript_again (container : Ty) (sub : Subscript) (loc : Loc) (s : State) :
    subscript container (subscript container sub loc s).1.1 loc s =
      subscript container sub loc s := by
  obtain ⟨row, col⟩ := sub
  cases col with
  | none => simp only [subscript, optional, bind_apply, pure_apply, Option.map_none, expr_again]
  | some col => simp only [subscript, optional, bind_apply, pure_apply, Option.map_some, expr_again]

theorem looseSubscript_again (sub : Option Subscript) (s : State) :
    looseSubscript (looseSubscript sub s).1 s = looseSubscript sub s := by
  cases sub with
  | none => rfl
  | some sub => simp only [looseSubscript, bind_apply, pure_apply, expr_again, optional_again]

theorem target_again (id : Nat) (symbol : Symbol) (loc : Loc) (sub : Option Subscript) (s : State) :
    target id symbol loc (target id symbol loc sub s).1.1 s = target id symbol loc sub s := by
  cases sub with
  | none => rfl
  | some sub => simp only [target, bind_apply, pure_apply, subscript_again]

theorem inputTarget_again (x : Name) (loc : Loc) (s : State) :
    inputTarget (inputTarget x loc s).1 loc s = inputTarget x loc s := by
  obtain ⟨g, hg, found, s', h⟩ := exists_resolve x.text loc false s
  cases found with
  | none =>
    simp only [inputTarget, bind_apply, pure_apply, h x rfl, h (g x) (hg.text x), hg.twice]
  | some p =>
    simp only [inputTarget, bind_apply, pure_apply, h x rfl, h (g x) (hg.text x), hg.twice]

theorem parameter_again (p : Param) (s : State) :
    parameter (parameter p s).1 s = parameter p s := by
  by_cases hp : p.ty = .void
  · have hrun : ∀ q : Param, q.ty = .void → q.loc = p.loc → q.name.text = p.name.text →
        parameter q s = (do
          report (.voidVariable p.name.text) p.loc
          let x ← declare q.name .unknown .parameter p.loc
          pure { q with name := x } : Analyze Param) s := by
      rintro q hq hloc htext
      simp only [parameter, hq, hloc, htext, if_true]
      rfl
    rw [hrun p hp rfl rfl, hrun]
    all_goals simp only [bind_apply, pure_apply, declare_again, text_declare, hp]
  · have hrun : ∀ q : Param, q.ty = p.ty → q.loc = p.loc → parameter q s = (do
          let x ← declare q.name p.ty .parameter p.loc
          pure { q with name := x } : Analyze Param) s := by
      rintro q hq hloc
      simp only [parameter, hq, hloc, if_neg hp]
      rfl
    rw [hrun p rfl rfl, hrun]
    all_goals simp only [bind_apply, pure_apply, declare_again]

theorem parameters_again (ps : List Param) (s : State) :
    parameters (parameters ps s).1 s = parameters ps s := by
  induction ps generalizing s with
  | nil => rfl
  | cons p ps ih => simp only [parameters, bind_apply, pure_apply, parameter_again, ih]

theorem assignment_again (top : Bool) (loc : Loc) (x : Name) (sub : Option Subscript) (value : Expr)
    (s : State) :
    stmt top (assignment loc x sub value s).1 s = assignment loc x sub value s := by
  obtain ⟨g, hg, found, s', h⟩ := exists_resolve x.text loc false (expr value s).2
  cases found with
  | none =>
    simp only [assignment, bind_apply, pure_apply, h x rfl, stmt, expr_again, h (g x) (hg.text x),
      hg.twice, looseSubscript_again]
  | some p =>
    simp only [assignment, bind_apply, pure_apply, h x rfl, stmt, expr_again, h (g x) (hg.text x),
      hg.twice, hg.text, target_again]

/-! ### Statements -/

mutual

theorem stmt_again (top : Bool) (st : Stmt) (s : State) :
    stmt top (stmt top st s).1 s = stmt top st s := by
  cases st with
  | decl loc x declared init =>
    simp only [stmt, bind_apply, pure_apply, expr_again, text_declare, declare_again]
  | assign loc x sub value => exact assignment_again top loc x sub value s
  | function loc f returns params body =>
    cases top with
    | false => simp only [stmt, bind_apply, pure_apply, Bool.false_eq_true, if_false]
    | true =>
      simp only [stmt, if_true, inScope, inFunction, bind_apply, pure_apply, parameters_again,
        stmts_again]
  | cond loc c body orElse =>
    cases orElse with
    | none => simp only [stmt, inScope, bind_apply, pure_apply, condition_again, stmts_again]
    | some orElse => simp only [stmt, inScope, bind_apply, pure_apply, condition_again, stmts_again]
  | «while» loc c body =>
    simp only [stmt, inScope, inLoop, bind_apply, pure_apply, condition_again, stmts_again]
  | «repeat» loc count body =>
    simp only [stmt, inScope, inLoop, bind_apply, pure_apply, expr_again, stmts_again]
  | «for» loc init c update body =>
    simp only [stmt, inScope, inLoop, bind_apply, pure_apply, condition_again, stmts_again,
      stmt_again]
  | «break» loc => simp only [stmt, bind_apply, pure_apply]
  | «continue» loc => simp only [stmt, bind_apply, pure_apply]
  | «return» loc value => simp only [stmt, bind_apply, pure_apply, optional_again]
  | print loc values => simp only [stmt, bind_apply, pure_apply, printed_again]
  | input loc x => simp only [stmt, bind_apply, pure_apply, inputTarget_again]
  | expr loc e => simp only [stmt, bind_apply, pure_apply, expr_again]

theorem stmts_again (ss : List Stmt) (s : State) : stmts (stmts ss s).1 s = stmts ss s := by
  cases ss with
  | nil => rfl
  | cons st ss => simp only [stmts, bind_apply, pure_apply, stmt_again, stmts_again]

end

/-! ### Programs -/

theorem ty_parameter (p : Param) (s : State) : (parameter p s).1.ty = p.ty := by
  by_cases hp : p.ty = .void <;> simp only [parameter, hp, if_true, if_false] <;> rfl

theorem tys_parameters (ps : List Param) (s : State) :
    (parameters ps s).1.map (·.ty) = ps.map (·.ty) := by
  induction ps generalizing s with
  | nil => rfl
  | cons p ps ih =>
    simp only [parameters, bind_apply, pure_apply, List.map_cons, ty_parameter, ih]

/-- What a statement declares before all others is not changed by its analysis. -/
theorem hoist_stmt (top : Bool) (st : Stmt) (ss : Program) (s s₀ : State) :
    hoist ((stmt top st s).1 :: ss) s₀ = hoist (st :: ss) s₀ := by
  cases st with
  | function loc f returns params body =>
    cases top with
    | false => simp only [stmt, bind_apply, pure_apply, Bool.false_eq_true, if_false]
    | true =>
      simp only [stmt, if_true, inScope, inFunction, bind_apply, pure_apply, hoist, tys_parameters]
  | assign loc x sub value =>
    obtain ⟨g, hg, found, s', h⟩ := exists_resolve x.text loc false (expr value s).2
    cases found <;> simp only [stmt, assignment, bind_apply, pure_apply, h x rfl, hoist]
  | cond loc c body orElse => cases orElse <;> rfl
  | _ => rfl

theorem hoist_cons_congr {ss ss' : Program} (h : ∀ s, hoist ss s = hoist ss' s) (st : Stmt)
    (s : State) : hoist (st :: ss) s = hoist (st :: ss') s := by
  have h : hoist ss = hoist ss' := funext h
  cases st <;> simp only [hoist, h]

theorem hoist_topLevel (p : Program) (s s₀ : State) : hoist (topLevel p s).1 s₀ = hoist p s₀ := by
  induction p generalizing s s₀ with
  | nil => rfl
  | cons st ss ih =>
    calc hoist (topLevel (st :: ss) s).1 s₀
        = hoist ((stmt true st s).1 :: ss) s₀ := hoist_cons_congr (fun s₀ => ih _ s₀) _ s₀
      _ = hoist (st :: ss) s₀ := hoist_stmt true st ss s s₀

theorem topLevel_again (p : Program) (s : State) : topLevel (topLevel p s).1 s = topLevel p s := by
  induction p generalizing s with
  | nil => rfl
  | cons st ss ih => simp only [topLevel, bind_apply, pure_apply, stmt_again, ih]

end Analysis

/-- Analysis of a program that analysis has annotated gives the same symbols and the same reports
as before, and changes no binding and no type in the program. -/
theorem Program.analyze_analyze (p : Program) (settings : SuggestionSettings) :
    (p.analyze settings).program.analyze settings = p.analyze settings := by
  have hrun : ∀ q : Program, q.analyze settings =
      (let s := (Analysis.hoist q (.start settings)).2
       let r := Analysis.topLevel q s
       ⟨r.1, r.2.scopes.symbols.toList,
        r.2.reports ++ Analysis.unused r.2.scopes.symbols.toList⟩) := fun _ => rfl
  simp only [hrun, Analysis.hoist_topLevel, Analysis.topLevel_again]

end NumericScript
