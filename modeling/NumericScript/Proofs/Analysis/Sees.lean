import NumericScript.Proofs.Analysis.Follow
import NumericScript.Proofs.Analysis.Sites

/-! # Names that analysis looks up

In a program of any form, if no error is reported in the end, analysis has found every name that it
looked up, and has bound it to what the name stands for there.

* `Sees`: steps that end with the same names in sight.
* `Resolves`: names become names that are bound.
* `sees_expr`: the names in an expression. -/

namespace NumericScript

namespace Analysis

/-- A step after which the same is in sight.  What it gives has the property `P` of what is in
sight. -/
def Sees {α : Type} (x : Analyze α) (P : Env → α → Prop) : Prop :=
  ∀ s s' a, Runs x s a s' → Keeps s s' ∧ ∀ Γ, s.scopes.Shows Γ → P Γ a

namespace Sees

variable {α β : Type} {P P' : Env → α → Prop} {Q : Env → β → Prop} {x : Analyze α} {a : α}

theorem pure (h : ∀ Γ, P Γ a) : Sees (Pure.pure a) P := by
  intro s s' b hrun
  obtain ⟨rfl, rfl, hr⟩ := runs_pure.1 hrun
  exact ⟨.refl hr, fun Γ _ => h Γ⟩

theorem bind {f : α → Analyze β} (hx : Sees x P) (hf : ∀ a, Sees (f a) fun Γ b => P Γ a → Q Γ b) :
    Sees (x >>= f) Q := by
  intro s s' b hrun
  obtain ⟨a, s₁, ha, hrun⟩ := runs_bind.1 hrun
  obtain ⟨hk', hQ⟩ := hf a _ _ _ hrun
  obtain ⟨hk, hP⟩ := hx _ _ _ ⟨ha, hk'.reports⟩
  exact ⟨hk.trans hk', fun Γ hΓ => hQ Γ (hk.shows Γ hΓ) (hP Γ hΓ)⟩

/-- A step that gives nothing of interest and changes nothing. -/
theorem of_eq (h : ∀ s s' a, Runs x s a s' → s' = s) : Sees x fun _ _ => True := by
  intro s s' a hrun
  obtain rfl := h s s' a hrun
  exact ⟨.refl hrun.2, fun _ _ => trivial⟩

end Sees

/-! ### Steps that bind no names -/

section

variable {loc : Loc}

theorem sees_demand {ok : Bool} {cause : SemanticError} (hc : cause.severity = .error) :
    Sees (demand ok cause loc) fun _ _ => True :=
  .of_eq fun _ _ _ h => (runs_demand hc h).2

theorem sees_binaryTy (op : BinaryOp) (left right : Ty) :
    Sees (binaryTy op left right loc) fun _ _ => True :=
  .of_eq fun _ _ _ h => (eq_of_binaryTy h).2

theorem sees_unaryTy (op : UnaryOp) (operand : Ty) :
    Sees (unaryTy op operand loc) fun _ _ => True :=
  .of_eq fun _ _ _ h => (eq_of_unaryTy h).2

theorem sees_elementTy (container : Ty) (two : Bool) :
    Sees (elementTy container two loc) fun _ _ => True :=
  .of_eq fun _ _ _ h => (eq_of_elementTy h).2

theorem sees_joinElement (element found : Ty) :
    Sees (joinElement element found loc) fun _ _ => True :=
  .of_eq fun _ _ _ h => (eq_of_joinElement h).2

theorem sees_declaredTy (x : String) (declared init : Ty) :
    Sees (declaredTy x declared init loc) fun _ _ => True :=
  .of_eq fun _ _ _ h => (eq_of_declaredTy h).2

theorem sees_checkIndex (index : Expr × Ty) : Sees (checkIndex index) fun _ _ => True :=
  sees_demand rfl

theorem sees_checkRow (cols row : Nat) (items : List Expr) :
    Sees (checkRow cols row items) fun _ _ => True :=
  sees_demand rfl

theorem sees_checkReturn (found : Option Ty) : Sees (checkReturn found loc) fun _ _ => True :=
  .of_eq fun _ _ _ h => (returns_of_checkReturn h).1

theorem sees_checkLoop (keyword : Keyword) : Sees (checkLoop keyword loc) fun _ _ => True :=
  .of_eq fun _ _ _ h => (runs_demand rfl (runs_get.1 h)).2

theorem sees_callTy (f : String) (args : List Ty) : Sees (callTy f args loc) fun _ _ => True :=
  fun _ _ _ h => ⟨(callTy_of_callTy h).1, fun _ _ => trivial⟩

theorem sees_used (id : Nat) :
    Sees (modifyScopes (·.update id fun s => { s with used := true })) fun _ _ => True :=
  fun _ _ _ h => ⟨keeps_used h, fun _ _ => trivial⟩

theorem sees_initialized (id : Nat) :
    Sees (modifyScopes (·.update id fun s => { s with initialized := true })) fun _ _ => True :=
  fun _ _ _ h => ⟨keeps_initialized h, fun _ _ => trivial⟩

end

/-! ### Names -/

/-- The names `xs` have become the names `ys`, which are bound to what they stand for. -/
structure Resolves (Γ : Env) (xs ys : List Name) : Prop where
  texts : ys.map (·.text) = xs.map (·.text)
  binds : Γ.Binds ys

namespace Resolves

variable {Γ : Env} {xs ys xs' ys' : List Name}

theorem nil : Resolves Γ [] [] := ⟨rfl, Env.binds_nil⟩

theorem append (h : Resolves Γ xs ys) (h' : Resolves Γ xs' ys') :
    Resolves Γ (xs ++ xs') (ys ++ ys') :=
  ⟨by rw [List.map_append, List.map_append, h.texts, h'.texts], h.binds.append h'.binds⟩

end Resolves

/-- Names have no bindings yet. -/
def Unbound (xs : List Name) : Prop := ∀ x ∈ xs, x.binding = none

theorem Unbound.append {xs ys : List Name} (h : Unbound (xs ++ ys)) : Unbound xs ∧ Unbound ys :=
  List.forall_mem_append.1 h

theorem Unbound.cons {x : Name} {xs : List Name} (h : Unbound (x :: xs)) :
    Unbound [x] ∧ Unbound xs :=
  append h

theorem sees_resolve {x : Name} (hx : Unbound [x]) {loc : Loc} {read : Bool} :
    Sees (resolve x loc read) fun Γ r => Resolves Γ [x] [r.1] := by
  rintro s s' ⟨x', found⟩ h
  obtain ⟨id, symbol, -, rfl, hk, hΓ⟩ := exists_of_resolve h
  refine ⟨hk, fun Γ hs => ⟨rfl, fun y hy => ?_⟩⟩
  obtain rfl := List.mem_singleton.1 hy
  exact ⟨symbol.binding, hΓ Γ hs, Name.binding_bind (hx x List.mem_cons_self) _⟩

/-! ### Expressions -/

mutual

theorem sees_expr (e : Expr) (h : Unbound e.names) :
    Sees (expr e) fun Γ r => Resolves Γ e.names r.1.names := by
  cases e with
  | int m v => exact .pure fun _ => .nil
  | float m v => exact .pure fun _ => .nil
  | str m v => exact .pure fun _ => .nil
  | bool m v => exact .pure fun _ => .nil
  | name m x => exact (sees_resolve h).bind fun _ => .pure fun _ hx => hx
  | binary m op l r =>
    obtain ⟨hl, hr⟩ := h.append
    exact (sees_expr l hl).bind fun _ => (sees_expr r hr).bind fun _ =>
      (sees_binaryTy _ _ _).bind fun _ => .pure fun _ _ hr hl => hl.append hr
  | unary m op e =>
    exact (sees_expr e h).bind fun _ => (sees_unaryTy _ _).bind fun _ => .pure fun _ _ he => he
  | call m f args =>
    exact (sees_exprs args h).bind fun _ => (sees_callTy _ _).bind fun _ => .pure fun _ _ ha => ha
  | array m items => exact (sees_elements items h _).bind fun _ => .pure fun _ hi => hi
  | matrix m rows => exact (sees_matrixRows rows h _ _).bind fun _ => .pure fun _ hr => hr
  | index m base row col =>
    cases col with
    | none =>
      obtain ⟨hb, hr⟩ := h.append
      exact (sees_expr base hb).bind fun _ => (sees_expr row hr).bind fun _ =>
        (sees_checkIndex _).bind fun _ => (sees_elementTy _ _).bind fun _ =>
        .pure fun _ _ _ hr hb => hb.append hr
    | some col =>
      obtain ⟨hbr, hc⟩ := h.append
      obtain ⟨hb, hr⟩ := hbr.append
      exact (sees_expr base hb).bind fun _ => (sees_expr row hr).bind fun _ =>
        (sees_checkIndex _).bind fun _ => (sees_expr col hc).bind fun _ =>
        (sees_checkIndex _).bind fun _ => (sees_elementTy _ _).bind fun _ =>
        .pure fun _ _ _ hc _ hr hb => (hb.append hr).append hc
termination_by structural e

theorem sees_exprs (es : List Expr) (h : Unbound (Expr.allNames es)) :
    Sees (exprs es) fun Γ ps => Resolves Γ (Expr.allNames es) (Expr.allNames (ps.map (·.1))) := by
  cases es with
  | nil => exact .pure fun _ => .nil
  | cons e es =>
    obtain ⟨he, hes⟩ := h.append
    exact (sees_expr e he).bind fun _ => (sees_exprs es hes).bind fun _ =>
      .pure fun _ hes he => he.append hes
termination_by structural es

theorem sees_elements (es : List Expr) (h : Unbound (Expr.allNames es)) (element : Ty) :
    Sees (elements element es) fun Γ r => Resolves Γ (Expr.allNames es) (Expr.allNames r.1) := by
  cases es with
  | nil => exact .pure fun _ => .nil
  | cons e es =>
    obtain ⟨he, hes⟩ := h.append
    exact (sees_expr e he).bind fun _ => (sees_joinElement _ _).bind fun _ =>
      (sees_elements es hes _).bind fun _ => .pure fun _ hes _ he => he.append hes
termination_by structural es

theorem sees_entries (es : List Expr) (h : Unbound (Expr.allNames es)) :
    Sees (entries es) fun Γ es' => Resolves Γ (Expr.allNames es) (Expr.allNames es') := by
  cases es with
  | nil => exact .pure fun _ => .nil
  | cons e es =>
    obtain ⟨he, hes⟩ := h.append
    exact (sees_expr e he).bind fun _ => (sees_demand rfl).bind fun _ =>
      (sees_entries es hes).bind fun _ => .pure fun _ hes _ he => he.append hes
termination_by structural es

theorem sees_matrixRows (rows : List (List Expr)) (h : Unbound (Expr.rowNames rows))
    (cols row : Nat) : Sees (matrixRows cols row rows) fun Γ rows' =>
      Resolves Γ (Expr.rowNames rows) (Expr.rowNames rows') := by
  cases rows with
  | nil => exact .pure fun _ => .nil
  | cons es rows =>
    obtain ⟨hes, hrows⟩ := h.append
    exact (sees_checkRow _ _ _).bind fun _ => (sees_entries es hes).bind fun _ =>
      (sees_matrixRows rows hrows _ _).bind fun _ => .pure fun _ hrows hes _ => hes.append hrows
termination_by structural rows

end

theorem sees_optional : ∀ (e : Option Expr), Unbound (Expr.optionalNames e) →
    Sees (optional e) fun Γ r =>
      Resolves Γ (Expr.optionalNames e) (Expr.optionalNames (r.map (·.1)))
  | none, _ => .pure fun _ => .nil
  | some e, h => (sees_expr e h).bind fun _ => .pure fun _ he => he

theorem sees_condition (construct : Keyword) {e : Expr} (h : Unbound e.names) :
    Sees (condition construct e) fun Γ e' => Resolves Γ e.names e'.names :=
  (sees_expr e h).bind fun _ => (sees_demand rfl).bind fun _ => .pure fun _ _ he => he

theorem sees_printed : ∀ (es : List Expr), Unbound (Expr.allNames es) →
    Sees (printed es) fun Γ es' => Resolves Γ (Expr.allNames es) (Expr.allNames es')
  | [], _ => .pure fun _ => .nil
  | e :: es, h =>
    (sees_expr e h.append.1).bind fun _ => (sees_demand rfl).bind fun _ =>
      (sees_printed es h.append.2).bind fun _ => .pure fun _ hes _ he => he.append hes

/-! ### Targets -/

/-- The names in a subscript that may be missing. -/
def subscriptNames : Option Subscript → List Name
  | none => []
  | some s => s.row.names ++ Expr.optionalNames s.col

theorem sees_subscript {s : Subscript} (h : Unbound (subscriptNames (some s))) (container : Ty)
    (loc : Loc) : Sees (subscript container s loc) fun Γ r =>
      Resolves Γ (subscriptNames (some s)) (subscriptNames (some r.1)) := by
  obtain ⟨hr, hc⟩ := h.append
  refine (sees_expr s.row hr).bind fun _ => (sees_checkIndex _).bind fun _ =>
    (sees_optional s.col hc).bind fun col => ?_
  cases col with
  | none => exact (sees_elementTy _ _).bind fun _ => .pure fun _ _ hc _ hr => hr.append hc
  | some col =>
    exact (sees_checkIndex _).bind fun _ => (sees_elementTy _ _).bind fun _ =>
      .pure fun _ _ _ hc _ hr => hr.append hc

theorem sees_looseSubscript : ∀ (sub : Option Subscript), Unbound (subscriptNames sub) →
    Sees (looseSubscript sub) fun Γ r => Resolves Γ (subscriptNames sub) (subscriptNames r)
  | none, _ => .pure fun _ => .nil
  | some s, h =>
    (sees_expr s.row h.append.1).bind fun _ => (sees_optional s.col h.append.2).bind fun _ =>
      .pure fun _ hc hr => hr.append hc

theorem sees_target (id : Nat) (symbol : Symbol) (loc : Loc) : ∀ (sub : Option Subscript),
    Unbound (subscriptNames sub) → Sees (target id symbol loc sub) fun Γ r =>
      Resolves Γ (subscriptNames sub) (subscriptNames r.1)
  | none, _ => .pure fun _ => .nil
  | some _, h =>
    (sees_used id).bind fun _ => (sees_subscript h _ _).bind fun _ => .pure fun _ hs _ => hs

theorem sees_inputTarget {x : Name} (hx : Unbound [x]) (loc : Loc) :
    Sees (inputTarget x loc) fun Γ x' => Resolves Γ [x] [x'] := by
  refine (sees_resolve hx).bind fun (x', resolved) => ?_
  cases resolved with
  | none => exact .pure fun _ hx => hx
  | some p =>
    exact (sees_demand rfl).bind fun _ => (sees_initialized _).bind fun _ =>
      .pure fun _ _ _ hx => hx

end Analysis

end NumericScript
