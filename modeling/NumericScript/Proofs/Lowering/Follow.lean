import NumericScript.Proofs.Lowering.Rules

/-! # Lowering follows the rules

* `exprCode_of_expr`, `stmtCode_of_stmt`: what lowering gives is given by a rule.
* `Program.exists_of_lower`: the code of a program is the code of its statements at top level
  and the regions of its functions. -/

namespace NumericScript.Lowering

/-! ### Steps -/

/-- A step of lowering after another gives something if both do. -/
theorem run_bind_eq_ok {α β : Type} {x : Lower α} {f : α → Lower β} {s s' : State} {b : β} :
    (x >>= f) s = .ok (b, s') ↔ ∃ a s₁, x s = .ok (a, s₁) ∧ f a s₁ = .ok (b, s') := by
  change (x s >>= fun p => f p.1 p.2) = .ok (b, s') ↔ _
  cases x s with
  | error e => exact ⟨nofun, fun ⟨_, _, h, _⟩ => nomatch h⟩
  | ok p => exact ⟨fun h => ⟨p.1, p.2, rfl, h⟩, fun ⟨_, _, h, h'⟩ => by cases h; exact h'⟩

theorem run_pure_eq_ok {α : Type} {a b : α} {s s' : State} :
    (pure a : Lower α) s = .ok (b, s') ↔ b = a ∧ s' = s := by
  change Except.ok (a, s) = .ok (b, s') ↔ _
  simp [eq_comm]

theorem run_one_eq_ok {op : Op} {s s' : State} {code : List Instr} :
    one op s = .ok (code, s') ↔ code = [s.instr op] ∧ s' = s := by
  change Except.ok ([s.instr op], s) = .ok (code, s') ↔ _
  simp [eq_comm]

theorem run_slotOf_eq_ok {x : Name} {s s' : State} {p : Variable × Ty} :
    slotOf x s = .ok (p, s') ↔ ∃ b, x.binding = some b ∧ p = (b.variable, b.ty) ∧ s' = s := by
  unfold slotOf
  cases h : x.binding with
  | none => exact ⟨nofun, fun ⟨_, h, _⟩ => nomatch h⟩
  | some b =>
    change Except.ok ((b.variable, b.ty), s) = .ok (p, s') ↔ _
    simp [eq_comm]

theorem run_callee_eq_ok {c : Context} {f : String} {line : Nat} {s s' : State}
    {r : Callee × List Ty × Ty} :
    callee c f line s = .ok (r, s') ↔ callee? c f = some r ∧ s' = s := by
  unfold callee callee?
  cases c.signatures.get? f with
  | some sig => exact run_pure_eq_ok.trans (by simp [eq_comm])
  | none =>
    cases Builtin.ofName? f with
    | some b => exact run_pure_eq_ok.trans (by simp [eq_comm])
    | none => exact ⟨nofun, fun h => nomatch h.1⟩

section

-- Steps that cannot fail are taken at once.
variable {α : Type} (s : State)

theorem run_freshTemp (f : Place → Lower α) : (freshTemp >>= f) s = f s.temp s.nextTemp := rfl

theorem run_freshLabel (f : Label → Lower α) : (freshLabel >>= f) s = f s.label s.nextLabel := rfl

theorem run_one (op : Op) (f : List Instr → Lower α) : (one op >>= f) s = f [s.instr op] s := rfl

theorem run_atLine (line : Nat) (f : Unit → Lower α) :
    (atLine line >>= f) s = f () (s.inLine line) := rfl

end

theorem pins_of_pinIf {changes : Bool} {a a' : Operand} {s s' : State} {code : List Instr}
    (h : pinIf changes a s = .ok ((code, a'), s')) : Pins changes s a code a' s' := by
  unfold pinIf at h
  split at h
  · rename_i hc
    unfold pin at h
    split at h
    · simp only [run_freshTemp, run_one, run_pure_eq_ok, Prod.mk.injEq] at h
      obtain ⟨⟨rfl, rfl⟩, rfl⟩ := h
      exact .pin hc
    · obtain ⟨h, rfl⟩ := run_pure_eq_ok.1 h
      cases h
      exact .keep fun _ v hv => ‹∀ v, a = .place (.var v) → False› v hv
  · obtain ⟨h, rfl⟩ := run_pure_eq_ok.1 h
    cases h
    exact .keep fun hc => absurd hc ‹_›

theorem widens_of_widen {found expected : Ty} {a a' : Operand} {s s' : State}
    {code : List Instr} (h : widen a found expected s = .ok ((code, a'), s')) :
    Widens s found expected a code a' s' := by
  unfold widen at h
  split at h
  · rename_i hty
    obtain ⟨rfl, rfl⟩ := hty
    split at h
    · obtain ⟨h, rfl⟩ := run_pure_eq_ok.1 h
      cases h
      exact .const
    · simp only [run_freshTemp, run_one, run_pure_eq_ok, Prod.mk.injEq] at h
      obtain ⟨⟨rfl, rfl⟩, rfl⟩ := h
      exact .widen fun n hn => ‹∀ n, a = .const (.int n) → False› n hn
  · obtain ⟨h, rfl⟩ := run_pure_eq_ok.1 h
    cases h
    exact .same ‹_›

theorem run_takeResult {returns : Ty} {s s' : State} {take : List Instr} {r : Option Operand}
    (h : takeResult true returns s = .ok ((take, r), s')) :
    r = none ∨ returns ≠ .void ∧ take = [s.instr (.copy s.temp .returned)] ∧
      r = some (.place s.temp) ∧ s' = s.nextTemp := by
  unfold takeResult at h
  split at h
  · obtain ⟨h, rfl⟩ := run_pure_eq_ok.1 h
    cases h
    exact .inl rfl
  · rename_i hv
    simp only [run_freshTemp, run_one, run_pure_eq_ok, Prod.mk.injEq] at h
    obtain ⟨⟨rfl, rfl⟩, rfl⟩ := h
    exact .inr ⟨fun h => hv (by simp [h]), rfl, rfl, rfl⟩

/-! ### Expressions -/

theorem widenedCode_of_widen {c : Context} {e : Expr} {expected : Ty} {s s₁ s₂ : State}
    {code widening : List Instr} {a a' : Operand} (he : ExprCode c s e code a s₁)
    (hw : widen a e.ty expected s₁ = .ok ((widening, a'), s₂)) :
    WidenedCode c s e expected (code ++ widening) a' s₂ :=
  .mk he (widens_of_widen hw)

mutual

/-- The code of an expression is that of a rule. -/
theorem exprCode_of_expr {c : Context} (e : Expr) {s s' : State} {code : List Instr}
    {a : Operand} (h : expr c e s = .ok ((code, a), s')) : ExprCode c s e code a s' := by
  cases e with
  | int m n =>
    simp only [expr, run_pure_eq_ok, Prod.mk.injEq] at h
    obtain ⟨⟨rfl, rfl⟩, rfl⟩ := h
    exact .int
  | float m x =>
    simp only [expr, run_pure_eq_ok, Prod.mk.injEq] at h
    obtain ⟨⟨rfl, rfl⟩, rfl⟩ := h
    exact .float
  | str m t =>
    simp only [expr, run_pure_eq_ok, Prod.mk.injEq] at h
    obtain ⟨⟨rfl, rfl⟩, rfl⟩ := h
    exact .str
  | bool m b =>
    simp only [expr, run_pure_eq_ok, Prod.mk.injEq] at h
    obtain ⟨⟨rfl, rfl⟩, rfl⟩ := h
    exact .bool
  | name m x =>
    simp only [expr, run_bind_eq_ok, run_slotOf_eq_ok] at h
    obtain ⟨p, s₁, ⟨b, hb, rfl, rfl⟩, h⟩ := h
    simp only [run_pure_eq_ok, Prod.mk.injEq] at h
    obtain ⟨⟨rfl, rfl⟩, rfl⟩ := h
    exact .name hb
  | binary m op l r =>
    simp only [expr, run_bind_eq_ok, run_freshTemp, run_one, run_pure_eq_ok, Prod.exists,
      Prod.mk.injEq] at h
    obtain ⟨left, b, s₁, hl, keep, b', s₂, hk, right, d, s₃, hr, ⟨rfl, rfl⟩, rfl⟩ := h
    exact .binary (exprCode_of_expr l hl) (pins_of_pinIf hk) (exprCode_of_expr r hr)
  | unary m op e =>
    simp only [expr, run_bind_eq_ok, run_freshTemp, run_one, run_pure_eq_ok, Prod.exists,
      Prod.mk.injEq] at h
    obtain ⟨operand, b, s₁, he, ⟨rfl, rfl⟩, rfl⟩ := h
    exact .unary (exprCode_of_expr e he)
  | call m f args =>
    simp only [expr, run_bind_eq_ok, run_one, Prod.exists, run_callee_eq_ok] at h
    obtain ⟨target, params, returns, s₁, ⟨hf, rfl⟩, passing, s₂, ha, take, r, s₃, ht, h⟩ := h
    rcases run_takeResult ht with rfl | ⟨hv, rfl, rfl, rfl⟩
    · cases h
    · simp only [run_pure_eq_ok, Prod.mk.injEq] at h
      obtain ⟨⟨rfl, rfl⟩, rfl⟩ := h
      exact .call hf (argumentsCode_of_arguments args ha) hv
  | array m items =>
    simp only [expr, run_bind_eq_ok, run_freshTemp, run_one, run_pure_eq_ok, Prod.mk.injEq] at h
    obtain ⟨fill, s₁, hf, ⟨rfl, rfl⟩, rfl⟩ := h
    exact .array (elementsCode_of_elements items hf)
  | matrix m rows =>
    simp only [expr, run_bind_eq_ok, run_freshTemp, run_one, run_pure_eq_ok, Prod.mk.injEq] at h
    obtain ⟨fill, s₁, hf, ⟨rfl, rfl⟩, rfl⟩ := h
    exact .matrix (rowsCode_of_matrixRows rows hf)
  | index m base row col =>
    cases col with
    | none =>
      simp only [expr, run_bind_eq_ok, run_freshTemp, run_one, run_pure_eq_ok, Prod.exists,
        Prod.mk.injEq] at h
      obtain ⟨first, b, s₁, hb, keep, b', s₂, hk, second, i, s₃, hr, ⟨rfl, rfl⟩, rfl⟩ := h
      exact .element (exprCode_of_expr base hb) (pins_of_pinIf hk) (exprCode_of_expr row hr)
    | some col =>
      simp only [expr, run_bind_eq_ok, run_freshTemp, run_one, run_pure_eq_ok, Prod.exists,
        Prod.mk.injEq] at h
      obtain ⟨first, b, s₁, hb, keep, b', s₂, hk, second, i, s₃, hr, keepRow, i', s₄, hkr, third,
        j, s₅, hc, ⟨rfl, rfl⟩, rfl⟩ := h
      exact .entry (exprCode_of_expr base hb) (pins_of_pinIf hk) (exprCode_of_expr row hr)
        (pins_of_pinIf hkr) (exprCode_of_expr col hc)

theorem argumentsCode_of_arguments {c : Context} (es : List Expr) {params : List Ty}
    {s s' : State} {code : List Instr} (h : arguments c params es s = .ok (code, s')) :
    ArgumentsCode c s params es code s' := by
  cases es with
  | nil =>
    simp only [arguments, run_pure_eq_ok] at h
    obtain ⟨rfl, rfl⟩ := h
    exact .nil
  | cons e es =>
    simp only [arguments, run_bind_eq_ok, run_one, run_pure_eq_ok, Prod.exists] at h
    obtain ⟨code, a, s₁, he, widening, a', s₂, hw, rest, s₃, hes, rfl, rfl⟩ := h
    exact .cons (widenedCode_of_widen (exprCode_of_expr e he) hw)
      (argumentsCode_of_arguments es hes)

theorem elementsCode_of_elements {c : Context} (es : List Expr) {array : Place} {element : Ty}
    {k : Nat} {s s' : State} {code : List Instr}
    (h : elements c array element k es s = .ok (code, s')) :
    ElementsCode c array element s k es code s' := by
  cases es with
  | nil =>
    simp only [elements, run_pure_eq_ok] at h
    obtain ⟨rfl, rfl⟩ := h
    exact .nil
  | cons e es =>
    simp only [elements, run_bind_eq_ok, run_one, run_pure_eq_ok, Prod.exists] at h
    obtain ⟨code, a, s₁, he, widening, a', s₂, hw, rest, s₃, hes, rfl, rfl⟩ := h
    exact .cons (widenedCode_of_widen (exprCode_of_expr e he) hw)
      (elementsCode_of_elements es hes)

theorem entriesCode_of_entries {c : Context} (es : List Expr) {matrix : Place} {row k : Nat}
    {s s' : State} {code : List Instr} (h : entries c matrix row k es s = .ok (code, s')) :
    EntriesCode c matrix row s k es code s' := by
  cases es with
  | nil =>
    simp only [entries, run_pure_eq_ok] at h
    obtain ⟨rfl, rfl⟩ := h
    exact .nil
  | cons e es =>
    simp only [entries, run_bind_eq_ok, run_one, run_pure_eq_ok, Prod.exists] at h
    obtain ⟨code, a, s₁, he, widening, a', s₂, hw, rest, s₃, hes, rfl, rfl⟩ := h
    exact .cons (widenedCode_of_widen (exprCode_of_expr e he) hw) (entriesCode_of_entries es hes)

theorem rowsCode_of_matrixRows {c : Context} (rows : List (List Expr)) {matrix : Place} {k : Nat}
    {s s' : State} {code : List Instr} (h : matrixRows c matrix k rows s = .ok (code, s')) :
    RowsCode c matrix s k rows code s' := by
  cases rows with
  | nil =>
    simp only [matrixRows, run_pure_eq_ok] at h
    obtain ⟨rfl, rfl⟩ := h
    exact .nil
  | cons es rows =>
    simp only [matrixRows, run_bind_eq_ok, run_pure_eq_ok] at h
    obtain ⟨code, s₁, he, rest, s₂, hes, rfl, rfl⟩ := h
    exact .cons (entriesCode_of_entries es he) (rowsCode_of_matrixRows rows hes)

end

theorem widenedCode_of_widened {c : Context} {e : Expr} {expected : Ty} {s s' : State}
    {code : List Instr} {a : Operand} (h : widened c e expected s = .ok ((code, a), s')) :
    WidenedCode c s e expected code a s' := by
  simp only [widened, run_bind_eq_ok, run_pure_eq_ok, Prod.exists, Prod.mk.injEq] at h
  obtain ⟨code, b, s₁, he, widening, a', s₂, hw, ⟨rfl, rfl⟩, rfl⟩ := h
  exact widenedCode_of_widen (exprCode_of_expr e he) hw

theorem printsCode_of_prints {c : Context} {es : List Expr} {s s' : State} {code : List Instr}
    (h : prints c es s = .ok (code, s')) : PrintsCode c s es code s' := by
  induction es generalizing s code with
  | nil =>
    simp only [prints, run_pure_eq_ok] at h
    obtain ⟨rfl, rfl⟩ := h
    exact .nil
  | cons e es ih =>
    simp only [prints, run_bind_eq_ok, run_one, run_pure_eq_ok, Prod.exists] at h
    obtain ⟨code, a, s₁, he, rest, s₂, hes, rfl, rfl⟩ := h
    exact .cons (exprCode_of_expr e he) (ih hes)

/-! ### Statements -/

theorem variableCode_of_setVariable {c : Context} {x : Name} {e : Expr} {s s' : State}
    {code : List Instr} (h : setVariable c x e s = .ok (code, s')) :
    VariableCode c s x e code s' := by
  simp only [setVariable, run_bind_eq_ok, run_slotOf_eq_ok, run_one, run_pure_eq_ok,
    Prod.exists, Prod.mk.injEq] at h
  obtain ⟨v, ty, s₁, ⟨b, hb, ⟨rfl, rfl⟩, rfl⟩, code, a, s₂, he, rfl, rfl⟩ := h
  exact .mk hb (widenedCode_of_widened he)

theorem elementCode_of_setElement {c : Context} {x : Name} {sub : Subscript} {e : Expr}
    {s s' : State} {code : List Instr} (h : setElement c x sub e s = .ok (code, s')) :
    ElementCode c s x sub e code s' := by
  obtain ⟨row, col⟩ := sub
  simp only [setElement, run_bind_eq_ok, run_slotOf_eq_ok] at h
  obtain ⟨p, s₁, ⟨b, hb, rfl, rfl⟩, h⟩ := h
  cases col with
  | none =>
    simp only [run_bind_eq_ok, run_one, run_pure_eq_ok, Prod.exists, Prod.mk.injEq] at h
    obtain ⟨first, i, s₂, hr, keep, i', s₃, hk, second, j, s₄, ⟨⟨rfl, rfl⟩, rfl⟩, code, a, s₅,
      he, rfl, rfl⟩ := h
    rw [callsOptional, Bool.or_false] at hk
    rw [List.append_nil]
    exact .element hb (exprCode_of_expr row hr) (pins_of_pinIf hk) (widenedCode_of_widened he)
  | some col =>
    simp only [run_bind_eq_ok, run_one, run_pure_eq_ok, Prod.exists, Prod.mk.injEq] at h
    obtain ⟨first, i, s₂, hr, keep, i', s₃, hk, second, j, s₄, hc, keepCol, j', s₅, hkc, both, j₂,
      s₆, ⟨⟨rfl, rfl⟩, rfl⟩, code, a, s₇, he, rfl, rfl⟩ := h
    exact .entry hb (exprCode_of_expr row hr) (pins_of_pinIf hk) (exprCode_of_expr col hc)
      (pins_of_pinIf hkc) (widenedCode_of_widened he)

theorem exists_of_loopControl {c : Context} {keyword : Keyword} {target : LoopLabels → Label}
    {line : Nat} {s s' : State} {code : List Instr}
    (h : loopControl c keyword target line s = .ok (code, s')) :
    ∃ labels, c.loop = some labels ∧ code = [s.instr (.jump (target labels))] ∧ s' = s := by
  unfold loopControl at h
  cases hl : c.loop with
  | none => rw [hl] at h; cases h
  | some labels =>
    rw [hl] at h
    obtain ⟨rfl, rfl⟩ := run_one_eq_ok.1 h
    exact ⟨labels, rfl, rfl, rfl⟩

theorem exists_of_callStatement {c : Context} {f : String} {args : List Expr} {line : Nat}
    {s s' : State} {code : List Instr} (h : callStatement c f args line s = .ok (code, s')) :
    ∃ target params returns passing, callee? c f = some (target, params, returns) ∧
      ArgumentsCode c s params args passing s' ∧
      code = passing ++ [s'.instr (.call target args.length)] := by
  simp only [callStatement, run_bind_eq_ok, run_one, run_pure_eq_ok, run_callee_eq_ok,
    Prod.exists] at h
  obtain ⟨target, params, returns, s₁, ⟨hf, rfl⟩, passing, s₂, ha, rfl, rfl⟩ := h
  exact ⟨target, params, returns, passing, hf, argumentsCode_of_arguments args ha, rfl⟩

mutual

/-- The code of a statement is that of a rule. -/
theorem stmtCode_of_stmt {c : Context} (st : Stmt) {s s' : State} {code : List Instr}
    (h : stmt c st s = .ok (code, s')) : StmtCode c s st code s' := by
  cases st with
  | decl loc x ty init =>
    simp only [stmt, run_atLine] at h
    exact .decl (variableCode_of_setVariable h)
  | assign loc x sub value =>
    cases sub with
    | none =>
      simp only [stmt, run_atLine] at h
      exact .assign (variableCode_of_setVariable h)
    | some sub =>
      simp only [stmt, run_atLine] at h
      exact .store (elementCode_of_setElement h)
  | function loc f returns params body =>
    simp only [stmt, run_atLine, run_pure_eq_ok] at h
    obtain ⟨rfl, rfl⟩ := h
    exact .function
  | cond loc e body orElse =>
    cases orElse with
    | none =>
      simp only [stmt, run_bind_eq_ok, run_atLine, run_one, run_freshLabel, run_pure_eq_ok,
        Prod.exists] at h
      obtain ⟨test, a, s₁, he, code, s₂, hb, rfl, rfl⟩ := h
      exact .cond (exprCode_of_expr e he) (blockCode_of_block body hb)
    | some orElse =>
      simp only [stmt, run_bind_eq_ok, run_atLine, run_one, run_freshLabel, run_pure_eq_ok,
        Prod.exists] at h
      obtain ⟨test, a, s₁, he, code, s₂, hb, codeElse, s₃, ho, rfl, rfl⟩ := h
      exact .branch (exprCode_of_expr e he) (blockCode_of_block body hb)
        (blockCode_of_block orElse ho)
  | «while» loc e body =>
    simp only [stmt, run_bind_eq_ok, run_atLine, run_one, run_freshLabel, run_pure_eq_ok,
      Prod.exists] at h
    obtain ⟨test, a, s₁, he, code, s₂, hb, rfl, rfl⟩ := h
    exact .while rfl (exprCode_of_expr e he) (blockCode_of_block body hb)
  | «repeat» loc count body =>
    simp only [stmt, run_bind_eq_ok, run_atLine, run_one, run_freshLabel, run_freshTemp,
      run_pure_eq_ok, Prod.exists] at h
    obtain ⟨counting, n, s₁, he, code, s₂, hb, rfl, rfl⟩ := h
    exact .repeat (exprCode_of_expr count he) (blockCode_of_block body hb) rfl
  | «for» loc init e update body =>
    simp only [stmt, run_bind_eq_ok, run_atLine, run_one, run_freshLabel, run_pure_eq_ok,
      Prod.exists] at h
    obtain ⟨first, s₁, hi, test, a, s₂, he, code, s₃, hb, last, s₄, hu, rfl, rfl⟩ := h
    exact .for (stmtCode_of_stmt init hi) rfl (exprCode_of_expr e he) (blockCode_of_block body hb)
      rfl (stmtCode_of_stmt update hu)
  | «break» loc =>
    simp only [stmt, run_atLine] at h
    obtain ⟨labels, hl, rfl, rfl⟩ := exists_of_loopControl h
    exact .break hl
  | «continue» loc =>
    simp only [stmt, run_atLine] at h
    obtain ⟨labels, hl, rfl, rfl⟩ := exists_of_loopControl h
    exact .continue hl
  | «return» loc value =>
    cases value with
    | none =>
      simp only [stmt, run_atLine, run_one_eq_ok] at h
      obtain ⟨rfl, rfl⟩ := h
      exact .leave
    | some e =>
      simp only [stmt, run_bind_eq_ok, run_atLine, run_one, run_pure_eq_ok, Prod.exists] at h
      obtain ⟨code, a, s₁, he, rfl, rfl⟩ := h
      exact .return (widenedCode_of_widened he)
  | print loc values =>
    simp only [stmt, run_atLine] at h
    exact .print (printsCode_of_prints h)
  | input loc x =>
    simp only [stmt, run_bind_eq_ok, run_atLine, run_slotOf_eq_ok] at h
    obtain ⟨p, s₁, ⟨b, hb, rfl, rfl⟩, h⟩ := h
    obtain ⟨rfl, rfl⟩ := run_one_eq_ok.1 h
    exact .input hb
  | expr loc e =>
    cases e with
    | call m f args =>
      simp only [stmt, run_atLine] at h
      obtain ⟨target, params, returns, passing, hf, ha, rfl⟩ := exists_of_callStatement h
      exact .call hf ha
    | _ =>
      simp only [stmt, run_bind_eq_ok, run_atLine, run_pure_eq_ok, Prod.exists] at h
      obtain ⟨code, a, s₁, he, rfl, rfl⟩ := h
      exact .expr nofun (exprCode_of_expr _ he)

theorem blockCode_of_block {c : Context} (ss : List Stmt) {s s' : State} {code : List Instr}
    (h : block c ss s = .ok (code, s')) : BlockCode c s ss code s' := by
  cases ss with
  | nil =>
    simp only [block, run_pure_eq_ok] at h
    obtain ⟨rfl, rfl⟩ := h
    exact .nil
  | cons st ss =>
    simp only [block, run_bind_eq_ok, run_pure_eq_ok] at h
    obtain ⟨code, s₁, hs, rest, s₂, hss, rfl, rfl⟩ := h
    exact .cons (stmtCode_of_stmt st hs) (blockCode_of_block ss hss)

end

/-! ### Programs -/

theorem topCode_of_topLevel {c : Context} {p : Program} {s s' : State} {code : List Instr}
    (h : topLevel c p s = .ok (code, s')) : TopCode c s p code s' := by
  induction p generalizing s code with
  | nil =>
    obtain ⟨rfl, rfl⟩ := run_one_eq_ok.1 h
    exact .nil
  | cons st rest ih =>
    cases st with
    | function => exact .function rfl (ih h)
    | _ =>
      simp only [topLevel, run_bind_eq_ok, run_pure_eq_ok] at h
      obtain ⟨code, s₁, hs, codes, s₂, hrest, rfl, rfl⟩ := h
      exact .cons rfl (stmtCode_of_stmt _ hs) (ih hrest)

theorem isSlot_of_parameters {params : List Param} {vars : List Variable} {s s' : State}
    (h : parameters params s = .ok (vars, s')) : List.Forall₂ IsSlot params vars ∧ s' = s := by
  induction params generalizing s vars with
  | nil =>
    obtain ⟨rfl, rfl⟩ := run_pure_eq_ok.1 h
    exact ⟨.nil, rfl⟩
  | cons p ps ih =>
    simp only [parameters, run_bind_eq_ok, run_slotOf_eq_ok, run_pure_eq_ok, Prod.exists,
      Prod.mk.injEq] at h
    obtain ⟨v, ty, s₁, ⟨b, hb, ⟨rfl, rfl⟩, rfl⟩, vs, s₂, hvs, rfl, rfl⟩ := h
    obtain ⟨hslots, hs⟩ := ih hvs
    exact ⟨.cons ⟨b, hb, rfl⟩ hslots, hs⟩

theorem regionsCode_of_functions {c : Context} {p : Program} {s s' : State}
    {codes : List Instr} {infos : List FunctionInfo}
    (h : functions c p s = .ok ((codes, infos), s')) : RegionsCode c s p codes infos s' := by
  induction p generalizing s codes infos with
  | nil =>
    simp only [functions, run_pure_eq_ok, Prod.mk.injEq] at h
    obtain ⟨⟨rfl, rfl⟩, rfl⟩ := h
    exact .nil
  | cons st rest ih =>
    cases st with
    | function loc f returns params body =>
      simp only [functions, function, run_bind_eq_ok, run_atLine, run_one, run_pure_eq_ok,
        Prod.exists, Prod.mk.injEq] at h
      obtain ⟨code, info, s₁, ⟨vars, s₂, hp, body, s₃, hb, ⟨rfl, rfl⟩, rfl⟩, codes, infos, s₄, h,
        ⟨rfl, rfl⟩, rfl⟩ := h
      obtain ⟨hslots, hs⟩ := isSlot_of_parameters hp
      subst hs
      exact .function hslots (blockCode_of_block _ hb) (ih h)
    | _ => exact .other rfl (ih h)

end NumericScript.Lowering

namespace NumericScript

open Lowering

/-- The code of a program is that of its statements at top level and of its functions. -/
theorem Program.exists_of_lower {p : Program} {code : Code} (h : p.lower = .ok code) :
    ∃ top regions s₁ s₂, TopCode p.context ⟨0, 0, 0⟩ p top s₁ ∧
      RegionsCode p.context s₁ p regions code.functions s₂ ∧ code.instrs = top ++ regions := by
  unfold Program.lower at h
  dsimp only at h
  generalize hx : (StateT.run _ _ : Except CodeError (Code × State)) = x at h
  cases x with
  | error e => cases h
  | ok r =>
    obtain ⟨code', s'⟩ := r
    cases h
    obtain ⟨top, s₁, ht, h⟩ := run_bind_eq_ok.1 hx
    obtain ⟨⟨regions, infos⟩, s₂, hr, h⟩ := run_bind_eq_ok.1 h
    obtain ⟨rfl, rfl⟩ := run_pure_eq_ok.1 h
    exact ⟨top, regions, s₁, _, topCode_of_topLevel ht, regionsCode_of_functions hr, rfl⟩

end NumericScript
