import NumericScript.Proofs.Location.Read
import NumericScript.Proofs.Lowering.Analysed

/-! # Reports of analysis

Analysis goes on after every report and takes none back.  It reports at places of the tree, keeps
them with the symbols that it declares, and leaves those of the tree as they are; only an empty row
of a matrix has no place of its own.  In a program of any form that is analysed without an error no
two functions at top level have the same name.

* `Lasting`: properties of what was reported and declared that analysis keeps.
* `Lasting.takes_hoist`, `Lasting.takes_topLevel`: it keeps them in every program.
* `prefix_topLevel`: no report is taken back.
* `Program.nodup_functionNames_analyze`: the names of functions. -/

namespace NumericScript

/-- A report that a row of a matrix is empty. -/
def SemanticReport.OfEmptyRow (r : SemanticReport) : Prop :=
  ∃ cols row, r.cause = .raggedMatrix cols row 0 ∧ r.loc = ⟨0, 0⟩

namespace Analysis

/-! ### Steps of analysis -/

/-- A property of states that no report at a place with the property `L`, nor one of an empty row,
takes away, and no change of the state that declares symbols at such places only. -/
structure Lasting (L : Loc → Prop) (I : State → Prop) : Prop where
  report {s : State} {r : SemanticReport} (hs : I s) (hr : L r.loc ∨ r.OfEmptyRow) :
    I { s with reports := s.reports ++ [r] }
  step {s t : State} (hs : I s) (hr : t.reports = s.reports)
    (hx : ∀ x ∈ t.scopes.symbols, (∃ y ∈ s.scopes.symbols, y.loc = x.loc) ∨ L x.loc) : I t

/-- A step of analysis that keeps the property `I` of states.  What it gives has the property
`P`. -/
def Takes {α : Type} (I : State → Prop) (x : Analyze α) (P : α → Prop) : Prop :=
  ∀ s, I s → P (x.run s).1 ∧ I (x.run s).2

namespace Takes

variable {I : State → Prop} {α β : Type} {P : α → Prop} {Q : β → Prop} {x y : Analyze α}

theorem pure {a : α} (h : P a) : Takes I (Pure.pure a) P := fun _ hs => ⟨h, hs⟩

theorem bind {f : α → Analyze β} (hx : Takes I x P) (hf : ∀ a, P a → Takes I (f a) Q) :
    Takes I (x >>= f) Q :=
  fun s hs => hf _ (hx s hs).1 _ (hx s hs).2

/-- What comes after the state was looked up, in that state. -/
theorem at_get {f : State → Analyze β} (hf : ∀ s, I s → Q ((f s).run s).1 ∧ I ((f s).run s).2) :
    Takes I (get >>= f) Q := hf

theorem get_bind {f : State → Analyze β} (hf : ∀ s, I s → Takes I (f s) Q) :
    Takes I (get >>= f) Q :=
  at_get fun s hs => hf s hs s hs

theorem ite {c : Prop} [Decidable c] (hx : Takes I x P) (hy : Takes I y P) :
    Takes I (if c then x else y) P := by
  split
  · exact hx
  · exact hy

end Takes

namespace Lasting

variable {L : Loc → Prop} {I : State → Prop} (hI : Lasting L I)
include hI

/-- A change of the state that neither reports nor declares anything. -/
theorem same {s t : State} (hs : I s) (hr : t.reports = s.reports)
    (hx : t.scopes.symbols = s.scopes.symbols) : I t :=
  hI.step hs hr fun x h => .inl ⟨x, hx ▸ h, rfl⟩

theorem takes_reportNear (cause : SemanticError) {p : Loc} (hp : L p) (suggestions : List String) :
    Takes I (reportNear cause p suggestions) fun _ => True :=
  fun _ hs => ⟨trivial, hI.report hs (.inl hp)⟩

theorem takes_report (cause : SemanticError) {p : Loc} (hp : L p) :
    Takes I (Analysis.report cause p) fun _ => True := hI.takes_reportNear cause hp []

theorem takes_demand (ok : Bool) (cause : SemanticError) {p : Loc} (hp : L p) :
    Takes I (demand ok cause p) fun _ => True := .ite (.pure trivial) (hI.takes_report cause hp)

/-- Changing a symbol but for its place. -/
theorem takes_update (id : Nat) {g : Symbol → Symbol} (hg : ∀ x, (g x).loc = x.loc) :
    Takes I (modifyScopes (·.update id g)) fun _ => True := by
  refine fun s hs => ⟨trivial, hI.step hs rfl fun x hx => .inl ?_⟩
  change x ∈ s.scopes.symbols.modify id g at hx
  obtain ⟨i, hi, rfl⟩ := Array.mem_iff_getElem.1 hx
  rw [Array.size_modify] at hi
  refine ⟨s.scopes.symbols[i], Array.getElem_mem hi, ?_⟩
  rw [Array.getElem_modify]
  split
  · exact (hg _).symm
  · rfl

section

variable {α : Type} {P : α → Prop} {x : Analyze α}

theorem takes_inScope (hx : Takes I x P) : Takes I (inScope x) P := by
  have henter : Takes I (modifyScopes Scopes.enter) fun _ => True :=
    fun s hs => ⟨trivial, hI.same hs rfl rfl⟩
  have hexit : Takes I (modifyScopes Scopes.exit) fun _ => True := by
    refine fun s hs => ⟨trivial, hI.same hs rfl ?_⟩
    change s.scopes.exit.symbols = s.scopes.symbols
    unfold Scopes.exit
    split <;> rfl
  exact .bind henter fun _ _ => .bind hx fun _ ha => .bind hexit fun _ _ => .pure ha

theorem takes_inLoop (hx : Takes I x P) : Takes I (inLoop x) P := by
  have hloops : ∀ g : Nat → Nat, Takes I (modify fun s => { s with loops := g s.loops })
      fun _ => True := fun _ _ hs => ⟨trivial, hI.same hs rfl rfl⟩
  exact .bind (hloops (· + 1)) fun _ _ => .bind hx fun _ ha =>
    .bind (hloops (· - 1)) fun _ _ => .pure ha

theorem takes_inFunction {g : Enclosing} (hx : Takes I x P) : Takes I (inFunction g x) P :=
  fun s hs =>
    have h := hx { s with enclosing := some g, loops := 0 } (hI.same hs rfl rfl)
    ⟨h.1, hI.same h.2 rfl rfl⟩

end

/-! ### Variables and calls -/

theorem takes_newSlot (name : String) (storage : Storage) :
    Takes I (newSlot name storage) fun _ => True := by
  intro s hs
  unfold newSlot
  simp only [StateT.run_bind, StateT.run_get, pure_bind]
  split <;> split <;> exact ⟨trivial, hI.same hs rfl rfl⟩

/-- A symbol that is declared has the place of its declaration. -/
theorem declared {s : State} {scopes : Scopes} {x : Symbol} {id : Nat}
    (h : s.scopes.declare x = .ok (id, scopes)) (hx : L x.loc) (hs : I s) :
    I { s with scopes := scopes } := by
  unfold Scopes.declare at h
  split at h
  · cases h
  · cases h
    refine hI.step hs rfl fun y hy => ?_
    rcases Array.mem_push.1 hy with hy | rfl
    · exact .inl ⟨y, hy, rfl⟩
    · exact .inr hx

theorem takes_declare (x : Name) (ty : Ty) (kind : SymbolKind) {p : Loc} (hp : L p) :
    Takes I (declare x ty kind p) fun _ => True := by
  refine .get_bind fun s _ => .bind (hI.takes_newSlot _ _) fun slot _ => .at_get fun s hs => ?_
  dsimp only
  generalize hd : s.scopes.declare _ = result
  rcases result with existing | ⟨id, scopes⟩
  · exact ⟨trivial, hI.report hs (.inl hp)⟩
  · exact ⟨trivial, hI.declared hd hp hs⟩

theorem takes_resolve (x : Name) {p : Loc} (hp : L p) (read : Bool) :
    Takes I (resolve x p read) fun _ => True := by
  refine .get_bind fun s _ => ?_
  split
  · exact .bind (.get_bind fun _ _ => hI.takes_reportNear _ hp _) fun _ _ => .pure trivial
  · refine .ite (.bind (hI.takes_report _ hp) fun _ _ => .pure trivial) ?_
    split
    · exact .bind (hI.takes_update _ fun _ => rfl) fun _ _ => .pure trivial
    · exact .pure trivial

theorem takes_checkArguments (f : String) {p : Loc} (hp : L p) : ∀ (position : Nat)
    (ds : List Demand) (ts : List Ty), Takes I (checkArguments f p position ds ts) fun _ => True
  | _, [], _ => .pure trivial
  | _, _ :: _, [] => .pure trivial
  | position, _ :: ds, _ :: ts =>
    .bind (hI.takes_demand _ _ hp) fun _ _ => takes_checkArguments f hp (position + 1) ds ts

theorem takes_callTy (f : String) (args : List Ty) {p : Loc} (hp : L p) :
    Takes I (callTy f args p) fun _ => True := by
  refine .get_bind fun s _ => ?_
  split
  · exact .bind (hI.takes_update _ fun _ => rfl) fun _ _ =>
      .ite (.bind (hI.takes_checkArguments _ hp _ _ _) fun _ _ => .pure trivial)
        (.bind (hI.takes_report _ hp) fun _ _ => .pure trivial)
  · split
    · exact .ite (.bind (hI.takes_checkArguments _ hp _ _ _) fun _ _ => .pure trivial)
        (.bind (hI.takes_report _ hp) fun _ _ => .pure trivial)
    · exact .get_bind fun _ _ => .ite (.bind (hI.takes_report _ hp) fun _ _ => .pure trivial)
        (.bind (.get_bind fun _ _ => hI.takes_reportNear _ hp _) fun _ _ => .pure trivial)

/-! ### Operators, indices and literals -/

theorem takes_binaryTy (op : BinaryOp) (left right : Ty) {p : Loc} (hp : L p) :
    Takes I (binaryTy op left right p) fun _ => True := by
  refine .ite (.pure trivial) ?_
  split
  · exact .pure trivial
  · exact .bind (hI.takes_report _ hp) fun _ _ => .pure trivial

theorem takes_unaryTy (op : UnaryOp) (operand : Ty) {p : Loc} (hp : L p) :
    Takes I (unaryTy op operand p) fun _ => True := by
  refine .ite (.pure trivial) ?_
  split
  · exact .pure trivial
  · exact .bind (hI.takes_report _ hp) fun _ _ => .pure trivial

theorem takes_elementTy (container : Ty) (two : Bool) {p : Loc} (hp : L p) :
    Takes I (elementTy container two p) fun _ => True := by
  unfold elementTy
  split <;> first
    | exact .pure trivial
    | exact .bind (hI.takes_report _ hp) fun _ _ => .pure trivial

theorem takes_joinElement (element found : Ty) {p : Loc} (hp : L p) :
    Takes I (joinElement element found p) fun _ => True := by
  unfold joinElement
  split
  · exact .bind (hI.takes_report _ hp) fun _ _ => .pure trivial
  all_goals first
    | exact .pure trivial
    | exact .ite (.pure trivial) (.bind (hI.takes_report _ hp) fun _ _ => .pure trivial)

theorem takes_checkIndex {i : Expr × Ty} (hi : i.1.Located L) :
    Takes I (checkIndex i) fun _ => True := hI.takes_demand _ _ hi.loc

/-- A row with elements is reported at the first of them. -/
theorem takes_checkRow (cols row : Nat) {es : List Expr} (hes : Expr.AllLocated L es) :
    Takes I (checkRow cols row es) fun _ => True := by
  cases es with
  | cons e es => exact hI.takes_demand _ _ hes.1.loc
  | nil =>
    exact .ite (.pure trivial) fun s hs => ⟨trivial, hI.report hs (.inr ⟨cols, row, rfl, rfl⟩)⟩

/-! ### Expressions -/

omit hI in
mutual

theorem takes_expr (hI : Lasting L I) : ∀ e : Expr, e.Located L →
    Takes I (expr e) fun r => r.1.Located L
  | .int _ _, h | .float _ _, h | .str _ _, h | .bool _ _, h => .pure h
  | .name _ _, h => .bind (hI.takes_resolve _ h _) fun _ _ => .pure h
  | .binary _ _ l r, h => .bind (hI.takes_expr l h.2.1) fun _ hl =>
      .bind (hI.takes_expr r h.2.2) fun _ hr => .bind (hI.takes_binaryTy _ _ _ h.1) fun _ _ =>
        .pure ⟨h.1, hl, hr⟩
  | .unary _ _ e, h => .bind (hI.takes_expr e h.2) fun _ he =>
      .bind (hI.takes_unaryTy _ _ h.1) fun _ _ => .pure ⟨h.1, he⟩
  | .call _ _ args, h => .bind (hI.takes_exprs args h.2) fun _ hargs =>
      .bind (hI.takes_callTy _ _ h.1) fun _ _ => .pure ⟨h.1, hargs⟩
  | .array _ items, h => .bind (hI.takes_elements .unknown items h.2) fun _ hitems =>
      .pure ⟨h.1, hitems⟩
  | .matrix _ rows, h => .bind (hI.takes_matrixRows _ _ rows h.2) fun _ hrows => .pure ⟨h.1, hrows⟩
  | .index _ base row none, h => .bind (hI.takes_expr base h.2.1) fun _ hb =>
      .bind (hI.takes_expr row h.2.2) fun _ hr => .bind (hI.takes_checkIndex hr) fun _ _ =>
        .bind (hI.takes_elementTy _ _ h.1) fun _ _ => .pure ⟨h.1, hb, hr⟩
  | .index _ base row (some col), h => .bind (hI.takes_expr base h.2.1) fun _ hb =>
      .bind (hI.takes_expr row h.2.2.1) fun _ hr => .bind (hI.takes_checkIndex hr) fun _ _ =>
        .bind (hI.takes_expr col h.2.2.2) fun _ hc => .bind (hI.takes_checkIndex hc) fun _ _ =>
          .bind (hI.takes_elementTy _ _ h.1) fun _ _ => .pure ⟨h.1, hb, hr, hc⟩

theorem takes_exprs (hI : Lasting L I) : ∀ es : List Expr, Expr.AllLocated L es →
    Takes I (exprs es) fun r => Expr.AllLocated L (r.map (·.1))
  | [], _ => .pure trivial
  | e :: es, h => .bind (hI.takes_expr e h.1) fun _ he => .bind (hI.takes_exprs es h.2) fun _ hes =>
      .pure ⟨he, hes⟩

theorem takes_elements (hI : Lasting L I) : ∀ (element : Ty) (es : List Expr),
    Expr.AllLocated L es → Takes I (elements element es) fun r => Expr.AllLocated L r.1
  | _, [], _ => .pure trivial
  | _, e :: es, h => .bind (hI.takes_expr e h.1) fun _ he =>
      .bind (hI.takes_joinElement _ _ he.loc) fun element _ =>
        .bind (hI.takes_elements element es h.2) fun _ hes => .pure ⟨he, hes⟩

theorem takes_entries (hI : Lasting L I) : ∀ es : List Expr, Expr.AllLocated L es →
    Takes I (entries es) (Expr.AllLocated L)
  | [], _ => .pure trivial
  | e :: es, h => .bind (hI.takes_expr e h.1) fun _ he =>
      .bind (hI.takes_demand _ _ he.loc) fun _ _ => .bind (hI.takes_entries es h.2) fun _ hes =>
        .pure ⟨he, hes⟩

theorem takes_matrixRows (hI : Lasting L I) : ∀ (cols row : Nat) (rows : List (List Expr)),
    Expr.AllLocatedRows L rows → Takes I (matrixRows cols row rows) (Expr.AllLocatedRows L)
  | _, _, [], _ => .pure trivial
  | cols, row, es :: rows, h => .bind (hI.takes_checkRow cols row h.1) fun _ _ =>
      .bind (hI.takes_entries es h.1) fun _ hes =>
        .bind (hI.takes_matrixRows cols (row + 1) rows h.2) fun _ hrows => .pure ⟨hes, hrows⟩

end

theorem takes_optional : ∀ e : Option Expr, Expr.LocatedOptional L e →
    Takes I (optional e) fun r => Expr.LocatedOptional L (r.map (·.1))
  | none, _ => .pure trivial
  | some e, h => .bind (hI.takes_expr e h) fun _ he => .pure he

theorem takes_condition (construct : Keyword) {e : Expr} (h : e.Located L) :
    Takes I (condition construct e) (Expr.Located L) :=
  .bind (hI.takes_expr e h) fun _ he => .bind (hI.takes_demand _ _ he.loc) fun _ _ => .pure he

/-! ### Statements -/

theorem takes_declaredTy (x : String) (declared init : Ty) {p : Loc} (hp : L p) :
    Takes I (declaredTy x declared init p) fun _ => True :=
  .ite (.bind (hI.takes_report _ hp) fun _ _ => .pure trivial)
    (.ite (.pure trivial) (.bind (hI.takes_report _ hp) fun _ _ => .pure trivial))

theorem takes_subscript (container : Ty) {s : Subscript} {p : Loc} (hp : L p)
    (h : Subscript.LocatedOptional L (some s)) :
    Takes I (subscript container s p) fun r => Subscript.LocatedOptional L (some r.1) := by
  refine .bind (hI.takes_expr s.row h.1) fun row hr => .bind (hI.takes_checkIndex hr) fun _ _ =>
    .bind (hI.takes_optional s.col h.2) fun col hc => ?_
  cases col with
  | none => exact .bind (hI.takes_elementTy _ _ hp) fun _ _ => .pure ⟨hr, hc⟩
  | some col =>
    exact .bind (hI.takes_checkIndex hc) fun _ _ => .bind (hI.takes_elementTy _ _ hp) fun _ _ =>
      .pure ⟨hr, hc⟩

theorem takes_target (id : Nat) (symbol : Symbol) {p : Loc} (hp : L p) :
    ∀ sub : Option Subscript, Subscript.LocatedOptional L sub →
      Takes I (target id symbol p sub) fun r => Subscript.LocatedOptional L r.1
  | none, _ => .pure trivial
  | some _, h => .bind (hI.takes_update _ fun _ => rfl) fun _ _ => .bind (hI.takes_subscript _ hp h)
      fun _ hs => .pure hs

theorem takes_looseSubscript : ∀ sub : Option Subscript, Subscript.LocatedOptional L sub →
    Takes I (looseSubscript sub) (Subscript.LocatedOptional L)
  | none, _ => .pure trivial
  | some s, h => .bind (hI.takes_expr s.row h.1) fun _ hr => .bind (hI.takes_optional s.col h.2)
      fun _ hc => .pure ⟨hr, hc⟩

theorem takes_assignment {p : Loc} (hp : L p) (x : Name) {sub : Option Subscript}
    (hsub : Subscript.LocatedOptional L sub) {value : Expr} (hvalue : value.Located L) :
    Takes I (assignment p x sub value) (Stmt.Located L) := by
  refine .bind (hI.takes_expr value hvalue) fun found hv =>
    .bind (hI.takes_resolve _ hp _) fun r _ => ?_
  rcases r with ⟨x, - | ⟨id, symbol⟩⟩
  · exact .bind (hI.takes_looseSubscript sub hsub) fun _ hs => .pure ⟨hp, hs, hv⟩
  · exact .bind (hI.takes_target _ _ hp sub hsub) fun _ hs =>
      .bind (hI.takes_demand _ _ hp) fun _ _ => .bind (hI.takes_update _ fun _ => rfl) fun _ _ =>
        .pure ⟨hp, hs, hv⟩

theorem takes_checkReturn (found : Option Ty) {p : Loc} (hp : L p) :
    Takes I (checkReturn found p) fun _ => True := by
  refine .get_bind fun s _ => ?_
  split
  · exact hI.takes_report _ hp
  · split
    · exact hI.takes_report _ hp
    · exact .pure trivial

theorem takes_checkLoop (keyword : Keyword) {p : Loc} (hp : L p) :
    Takes I (checkLoop keyword p) fun _ => True :=
  .get_bind fun _ _ => hI.takes_demand _ _ hp

theorem takes_printed : ∀ es : List Expr, Expr.AllLocated L es →
    Takes I (printed es) (Expr.AllLocated L)
  | [], _ => .pure trivial
  | e :: es, h => .bind (hI.takes_expr e h.1) fun _ he =>
      .bind (hI.takes_demand _ _ he.loc) fun _ _ => .bind (takes_printed es h.2) fun _ hes =>
        .pure ⟨he, hes⟩

theorem takes_inputTarget (x : Name) {p : Loc} (hp : L p) :
    Takes I (inputTarget x p) fun _ => True := by
  refine .bind (hI.takes_resolve _ hp _) fun r _ => ?_
  rcases r with ⟨x, - | ⟨id, symbol⟩⟩
  · exact .pure trivial
  · exact .bind (hI.takes_demand _ _ hp) fun _ _ =>
      .bind (hI.takes_update _ fun _ => rfl) fun _ _ => .pure trivial

theorem takes_parameters : ∀ ps : List Param, (∀ q ∈ ps, L q.loc) →
    Takes I (parameters ps) fun qs => ∀ q ∈ qs, L q.loc
  | [], _ => .pure nofun
  | p :: ps, h => by
    obtain ⟨hp, hps⟩ := List.forall_mem_cons.1 h
    have hparameter : Takes I (parameter p) fun q => L q.loc :=
      .ite
        (.bind (hI.takes_report _ hp) fun _ _ =>
          .bind (P := fun _ => True) (.pure trivial) fun _ _ =>
            .bind (hI.takes_declare _ _ _ hp) fun _ _ => .pure hp)
        (.bind (P := fun _ => True) (.pure trivial) fun _ _ =>
          .bind (hI.takes_declare _ _ _ hp) fun _ _ => .pure hp)
    exact .bind hparameter fun _ hq => .bind (takes_parameters ps hps) fun _ hqs =>
      .pure (List.forall_mem_cons.2 ⟨hq, hqs⟩)

omit hI in
mutual

theorem takes_stmt (hI : Lasting L I) : ∀ (top : Bool) (st : Stmt), st.Located L →
    Takes I (stmt top st) (Stmt.Located L)
  | _, .decl _ _ _ init, h => .bind (hI.takes_expr init h.2) fun _ hi =>
      .bind (hI.takes_declaredTy _ _ _ h.1) fun _ _ => .bind (hI.takes_declare _ _ _ h.1) fun _ _ =>
        .pure ⟨h.1, hi⟩
  | _, .assign _ _ _ _, h => hI.takes_assignment h.1 _ h.2.1 h.2.2
  | _, .function _ _ _ params body, h => .ite
      (hI.takes_inScope (.bind (hI.takes_parameters params h.2.1) fun _ hps =>
        .bind (hI.takes_inFunction (hI.takes_stmts body h.2.2)) fun _ hb => .pure ⟨h.1, hps, hb⟩))
      (.bind (hI.takes_report _ h.1) fun _ _ => .pure h)
  | _, .cond _ _ body none, h => .bind (hI.takes_condition _ h.2.1) fun _ he =>
      .bind (hI.takes_inScope (hI.takes_stmts body h.2.2)) fun _ hb => .pure ⟨h.1, he, hb⟩
  | _, .cond _ _ body (some orElse), h => .bind (hI.takes_condition _ h.2.1) fun _ he =>
      .bind (hI.takes_inScope (hI.takes_stmts body h.2.2.1)) fun _ hb =>
        .bind (hI.takes_inScope (hI.takes_stmts orElse h.2.2.2)) fun _ ho => .pure ⟨h.1, he, hb, ho⟩
  | _, .while _ _ body, h => .bind (hI.takes_condition _ h.2.1) fun _ he =>
      .bind (hI.takes_inLoop (hI.takes_inScope (hI.takes_stmts body h.2.2))) fun _ hb =>
        .pure ⟨h.1, he, hb⟩
  | _, .repeat _ count body, h => .bind (hI.takes_expr count h.2.1) fun _ hc =>
      .bind (hI.takes_demand _ _ hc.loc) fun _ _ =>
        .bind (hI.takes_inLoop (hI.takes_inScope (hI.takes_stmts body h.2.2))) fun _ hb =>
          .pure ⟨h.1, hc, hb⟩
  | _, .for _ init _ update body, h => hI.takes_inScope <|
      .bind (hI.takes_stmt false init h.2.1) fun _ hi =>
        .bind (hI.takes_condition _ h.2.2.1) fun _ he =>
          .bind (hI.takes_stmt false update h.2.2.2.1) fun _ hu =>
            .bind (hI.takes_inLoop (hI.takes_inScope (hI.takes_stmts body h.2.2.2.2))) fun _ hb =>
              .pure ⟨h.1, hi, he, hu, hb⟩
  | _, .break _, h | _, .continue _, h => .bind (hI.takes_checkLoop _ h) fun _ _ => .pure h
  | _, .return _ value, h => .bind (hI.takes_optional value h.2) fun _ hv =>
      .bind (hI.takes_checkReturn _ h.1) fun _ _ => .pure ⟨h.1, hv⟩
  | _, .print _ values, h => .bind (hI.takes_printed values h.2) fun _ hvs => .pure ⟨h.1, hvs⟩
  | _, .input _ _, h => .bind (hI.takes_inputTarget _ h) fun _ _ => .pure h
  | _, .expr _ e, h => .bind (hI.takes_expr e h.2) fun _ he => .pure ⟨h.1, he⟩

theorem takes_stmts (hI : Lasting L I) : ∀ ss : List Stmt, Stmt.AllLocated L ss →
    Takes I (stmts ss) (Stmt.AllLocated L)
  | [], _ => .pure trivial
  | s :: ss, h => .bind (hI.takes_stmt false s h.1) fun _ hs =>
      .bind (hI.takes_stmts ss h.2) fun _ hss => .pure ⟨hs, hss⟩

end

/-! ### Programs -/

theorem takes_topLevel : ∀ p : Program, Stmt.AllLocated L p →
    Takes I (topLevel p) (Stmt.AllLocated L)
  | [], _ => .pure trivial
  | s :: ss, h => .bind (hI.takes_stmt true s h.1) fun _ hs =>
      .bind (takes_topLevel ss h.2) fun _ hss => .pure ⟨hs, hss⟩

theorem takes_hoist (p : Program) (h : Stmt.AllLocated L p) :
    Takes I (hoist p) fun _ => True := by
  induction p with
  | nil => exact .pure trivial
  | cons st rest ih =>
    cases st with
    | function loc f returns params body =>
      refine .at_get fun s hs => ?_
      dsimp only
      generalize hd : s.scopes.declare _ = result
      rcases result with existing | ⟨id, scopes⟩
      · exact ih h.2 _ (hI.report hs (.inl h.1.1))
      · exact ih h.2 _ (hI.declared hd h.1.1 hs)
    | _ => exact ih h.2

end Lasting

/-- A later list of reports begins with an earlier one. -/
theorem lasting_reports (reports : List SemanticReport) :
    Lasting (fun _ => True) fun s => reports <+: s.reports where
  report hs _ := hs.trans (List.prefix_append _ _)
  step hs hr _ := hr ▸ hs

/-- No report is taken back. -/
theorem prefix_topLevel (p : Program) (s : State) :
    s.reports <+: ((topLevel p).run s).2.reports :=
  ((lasting_reports s.reports).takes_topLevel p (Stmt.allLocated_true p) s
    (List.prefix_refl _)).2

/-! ### Names of functions -/

theorem functionNames_cons {st : Stmt} {rest : Program} :
    Program.functionNames (st :: rest) = Program.functionNames [st] ++ rest.functionNames :=
  List.filterMap_append (l := [st])

/-- Analysis keeps the name of a function. -/
theorem functionNames_stmt (st : Stmt) (s : State) :
    Program.functionNames [((stmt true st).run s).1] = Program.functionNames [st] := by
  cases st with
  | assign loc x sub value =>
    have hbind : ∀ {α β : Type} (y : Analyze α) (f : α → Analyze β) (s : State),
        (y >>= f).run s = (f (y.run s).1).run (y.run s).2 := fun _ _ _ => rfl
    rw [stmt, assignment, hbind, hbind]
    generalize (resolve x loc false).run _ = r
    rcases r with ⟨⟨x, - | ⟨id, symbol⟩⟩, s'⟩ <;> rfl
  | cond loc e body orElse => cases orElse <;> rfl
  | _ => rfl

theorem functionNames_topLevel (p : Program) : ∀ s : State,
    Program.functionNames ((topLevel p).run s).1 = p.functionNames := by
  induction p with
  | nil => exact fun _ => rfl
  | cons st rest ih =>
    intro s
    change Program.functionNames (((stmt true st).run s).1 ::
      ((topLevel rest).run ((stmt true st).run s).2).1) = _
    rw [functionNames_cons, functionNames_stmt, ih, ← functionNames_cons]

end Analysis

open Analysis

/-- In what analysis accepts, functions at top level have distinct names. -/
theorem Program.nodup_functionNames_analyze {p : Program} {settings : SuggestionSettings}
    (h : Clean (p.analyze settings).reports) :
    (p.analyze settings).program.functionNames.Nodup := by
  obtain ⟨u, s₁, hhoist⟩ : ∃ u s₁, (hoist p).run (State.start settings) = (u, s₁) := ⟨_, _, rfl⟩
  have hrun : (do hoist p; topLevel p : Analyze Program).run (State.start settings) =
      (topLevel p).run s₁ := by
    rw [StateT.run_bind, hhoist]
    rfl
  rw [analyze, hrun] at h ⊢
  have hclean : Clean s₁.reports := fun r hr =>
    h r (List.mem_append_left _ ((prefix_topLevel p s₁).subset hr))
  obtain ⟨-, -, hshows⟩ := @shows_of_hoist _ _ _ _ [] ⟨hhoist, hclean⟩
  obtain ⟨-, hdistinct⟩ := hshows ⟨.nil, .nil⟩ List.nodup_nil
  rw [List.append_nil] at hdistinct
  change (functionNames ((topLevel p).run s₁).1).Nodup
  rw [functionNames_topLevel]
  exact nodup_functionNames_of_entries hdistinct

end NumericScript
