import Mathlib.Data.List.Induction
import NumericScript.Proofs.Analysis.Proper
import NumericScript.Proofs.Lowering.Follow

/-! # Lowering succeeds

Lowering a program that analysis accepts fails only for want of a value: where a call of a
function that gives nothing is used next to something of unknown type, analysis does not ask for
its value, and lowering does.

* `Expr.wantsVoid`, `Stmt.wantsVoid`: where that happens.
* `lowers_expr`, `lowers_stmt`: lowering fails exactly then, and with that error.
* `Program.lowers`: the same for programs. -/

namespace NumericScript

/-! ### Values that are not there -/

/-- Whether an expression is a call that gives nothing. -/
def Expr.givesNothing : Expr → Bool
  | .call m _ _ => m.ty = some .void
  | _ => false

mutual

/-- Whether somewhere in an expression a call that gives nothing is an operand of an operator
whose other operand is of unknown type. -/
def Expr.wantsVoid : Expr → Bool
  | .int _ _ | .float _ _ | .str _ _ | .bool _ _ | .name _ _ => false
  | .binary _ _ l r =>
    (l.givesNothing && r.ty = .unknown) || (r.givesNothing && l.ty = .unknown) ||
      (l.wantsVoid || r.wantsVoid)
  | .unary _ _ e => e.wantsVoid
  | .call _ _ args => Expr.wantsVoidAny args
  | .array _ items => Expr.wantsVoidAny items
  | .matrix _ rows => Expr.wantsVoidAnyRow rows
  | .index _ base row none => base.wantsVoid || row.wantsVoid
  | .index _ base row (some col) => base.wantsVoid || (row.wantsVoid || col.wantsVoid)

def Expr.wantsVoidAny : List Expr → Bool
  | [] => false
  | e :: es => e.wantsVoid || Expr.wantsVoidAny es

def Expr.wantsVoidAnyRow : List (List Expr) → Bool
  | [] => false
  | es :: rows => Expr.wantsVoidAny es || Expr.wantsVoidAnyRow rows

end

/-- Whether a name is bound to a container of which the type of the elements is unknown. -/
def Name.holdsUnknown (x : Name) : Bool := x.binding.any fun b => b.ty.element? = some .unknown

def Expr.wantsVoidOptional : Option Expr → Bool
  | some e => e.wantsVoid
  | none => false

mutual

/-- Whether somewhere in a statement a call that gives nothing is an operand of an operator whose
other operand is of unknown type, or is put into a container of which the type of the elements is
unknown. -/
def Stmt.wantsVoid : Stmt → Bool
  | .decl _ _ _ init => init.wantsVoid
  | .assign _ _ none value => value.wantsVoid
  | .assign _ x (some s) value =>
    s.row.wantsVoid || Expr.wantsVoidOptional s.col ||
      (value.givesNothing && x.holdsUnknown || value.wantsVoid)
  | .function _ _ _ _ body => Stmt.wantsVoidAny body
  | .cond _ e body none => e.wantsVoid || Stmt.wantsVoidAny body
  | .cond _ e body (some orElse) =>
    e.wantsVoid || (Stmt.wantsVoidAny body || Stmt.wantsVoidAny orElse)
  | .while _ e body => e.wantsVoid || Stmt.wantsVoidAny body
  | .repeat _ count body => count.wantsVoid || Stmt.wantsVoidAny body
  | .for _ init e update body =>
    init.wantsVoid || (e.wantsVoid || (Stmt.wantsVoidAny body || update.wantsVoid))
  | .break _ | .continue _ | .return _ none | .input _ _ => false
  | .return _ (some e) => e.wantsVoid
  | .print _ values => Expr.wantsVoidAny values
  | .expr _ e => e.wantsVoid

def Stmt.wantsVoidAny : List Stmt → Bool
  | [] => false
  | s :: ss => s.wantsVoid || Stmt.wantsVoidAny ss

end

open Analysis

/-! ### Steps of lowering -/

namespace Lowering

/-- A step of lowering gives something, or fails for want of a value if that is so. -/
def Lowers {α : Type} (fails : Bool) (x : Lower α) : Prop :=
  ∀ s, if fails then ∃ f line, x s = .error (.voidValue f line) else ∃ r, x s = .ok r

section

variable {α β : Type} {b b' : Bool} {x : Lower α}

theorem Lowers.bind {f : α → Lower β} (hx : Lowers b x) (hf : ∀ a, Lowers b' (f a)) :
    Lowers (b || b') (x >>= f) := by
  intro s
  have hs := hx s
  change if (b || b') = true then ∃ name line, (x s >>= fun p => f p.1 p.2) = _ else
    ∃ r, (x s >>= fun p => f p.1 p.2) = .ok r
  cases b with
  | true =>
    obtain ⟨name, line, h⟩ := hs
    exact ⟨name, line, by rw [h]; rfl⟩
  | false =>
    obtain ⟨⟨a, s₁⟩, h⟩ := hs
    rw [h]
    exact hf a s₁

theorem Lowers.pure (a : α) : Lowers false (Pure.pure a : Lower α) := fun s => ⟨(a, s), rfl⟩

theorem Lowers.of_eq (hx : Lowers b x) (h : b = b') : Lowers b' x := h ▸ hx

theorem lowers_freshTemp : Lowers false freshTemp := fun s => ⟨(s.temp, s.nextTemp), rfl⟩

theorem lowers_freshLabel : Lowers false freshLabel := fun s => ⟨(s.label, s.nextLabel), rfl⟩

theorem lowers_atLine (line : Nat) : Lowers false (atLine line) :=
  fun s => ⟨((), s.inLine line), rfl⟩

theorem lowers_one (op : Op) : Lowers false (one op) := fun s => ⟨([s.instr op], s), rfl⟩

theorem lowers_slotOf {x : Name} {b : Binding} (h : x.binding = some b) :
    Lowers false (slotOf x) := by
  unfold slotOf
  rw [h]
  exact .pure _

theorem lowers_voidValue {α : Type} (f : String) (line : Nat) :
    Lowers true (throw (.voidValue f line) : Lower α) := fun _ => ⟨f, line, rfl⟩

theorem lowers_pinIf (changes : Bool) (a : Operand) : Lowers false (pinIf changes a) := by
  unfold pinIf pin
  split
  · split
    · exact .bind lowers_freshTemp fun _ => .bind (lowers_one _) fun _ => .pure _
    · exact .pure _
  · exact .pure _

theorem lowers_widen (a : Operand) (found expected : Ty) :
    Lowers false (widen a found expected) := by
  unfold widen
  split
  · split
    · exact .pure _
    · exact .bind lowers_freshTemp fun _ => .bind (lowers_one _) fun _ => .pure _
  · exact .pure _

end

/-! ### Calls -/

/-- Lowering knows the functions that are in sight. -/
def Context.Agrees (c : Context) (Γ : Env) : Prop :=
  ∀ f, (c.signatures.get? f).map (fun s => (s.params, s.returns)) = Γ.callee? f

theorem callee_of_callee? {c : Context} {f : String} {r : Callee × List Ty × Ty}
    (h : callee? c f = some r) (line : Nat) : callee c f line = pure r := by
  unfold callee? at h
  unfold callee
  cases hs : c.signatures.get? f with
  | some s =>
    rw [hs] at h
    cases h
    rfl
  | none =>
    rw [hs] at h
    obtain ⟨b, hb, rfl⟩ := Option.map_eq_some_iff.1 h
    rw [hb]

/-- Lowering finds what a call calls. -/
theorem exists_callee? {c : Context} {Γ : Env} {f : String} {args : List Ty} {t : Ty}
    (hc : c.Agrees Γ) (h : Γ.callTy? f args = some t) :
    ∃ target params, callee? c f = some (target, params, t) := by
  have hf := hc f
  unfold Env.callTy? at h
  unfold callee?
  cases hs : c.signatures.get? f with
  | some s =>
    rw [hs, Option.map_some] at hf
    rw [← hf] at h
    dsimp only at h
    split at h <;> cases h
    exact ⟨_, _, rfl⟩
  | none =>
    rw [hs, Option.map_none] at hf
    rw [← hf] at h
    dsimp only at h
    split at h
    · rename_i b hb
      split at h <;> cases h
      rw [hb]
      exact ⟨_, _, rfl⟩
    · cases h

theorem takeResult_void : takeResult true .void = pure ([], none) := rfl

theorem takeResult_of_ne {returns : Ty} (h : returns ≠ .void) :
    takeResult true returns = (freshTemp >>= fun t => one (.copy t .returned) >>= fun code =>
      pure (code, some (.place t))) := by
  unfold takeResult
  rw [if_neg (by simp [h])]

/-! ### Expressions -/

theorem mark_ty_of_exprTyped {Γ : Env} {e : Expr} {t : Ty} (h : ExprTyped Γ e t) :
    e.mark.ty = some t := by
  cases h <;> assumption

theorem ty_of_exprTyped {Γ : Env} {e : Expr} {t : Ty} (h : ExprTyped Γ e t) : e.ty = t := by
  rw [Expr.ty, mark_ty_of_exprTyped h]
  rfl

theorem eq_void_of_givesNothing {Γ : Env} {e : Expr} {t : Ty} (h : ExprTyped Γ e t)
    (hn : e.givesNothing = true) : t = .void := by
  have hm := mark_ty_of_exprTyped h
  cases e with
  | call m f args =>
    have hv : m.ty = some .void := of_decide_eq_true hn
    exact (Option.some.inj (hv.symm.trans hm)).symm
  | _ => cases hn

theorem givesNothing_of_ne {Γ : Env} {e : Expr} {t : Ty} (h : ExprTyped Γ e t) (ht : t ≠ .void) :
    e.givesNothing = false := by
  cases hn : e.givesNothing with
  | false => rfl
  | true => exact absurd (eq_void_of_givesNothing h hn) ht

/-- An operator has a type for nothing only next to something unknown. -/
theorem eq_unknown_of_binaryTy?_void {op : BinaryOp} {t u : Ty} :
    (binaryTy? op .void u = some t → u = .unknown) ∧
    (binaryTy? op u .void = some t → u = .unknown) := by
  constructor <;> intro h
  all_goals
    cases u with
    | unknown => rfl
    | _ => cases op <;> cases h

theorem not_unaryTy?_void {op : UnaryOp} {t : Ty} : unaryTy? op .void ≠ some t := by
  cases op <;> exact nofun

mutual

/-- Lowering an expression fails if it gives nothing, and if a value is wanted in it that is not
there. -/
theorem lowers_expr {c : Context} {Γ : Env} (hc : c.Agrees Γ) (hΓ : Γ.Proper) (e : Expr) :
    ∀ {t : Ty}, ExprTyped Γ e t → Lowers (e.givesNothing || e.wantsVoid) (expr c e) := by
  intro t h
  cases h with
  | int | float | str | bool => exact .pure _
  | name hm hx => exact .bind (lowers_slotOf hx.binding) fun ⟨_, _⟩ => .pure _
  | @binary m op l r left right _ hm hl hr ht =>
    have hloweredl := lowers_expr hc hΓ l hl
    have hloweredr := lowers_expr hc hΓ r hr
    refine .of_eq (.bind hloweredl fun ⟨_, _⟩ => .bind (lowers_pinIf _ _) fun ⟨_, _⟩ =>
      .bind hloweredr fun ⟨_, _⟩ => .bind lowers_freshTemp fun _ => .bind (lowers_one _) fun _ =>
        .pure _) ?_
    have htl := ty_of_exprTyped hl
    have htr := ty_of_exprTyped hr
    have hunknownr : l.givesNothing = true → right = .unknown := fun hn =>
      eq_unknown_of_binaryTy?_void.1 (eq_void_of_givesNothing hl hn ▸ ht)
    have hunknownl : r.givesNothing = true → left = .unknown := fun hn =>
      eq_unknown_of_binaryTy?_void.2 (eq_void_of_givesNothing hr hn ▸ ht)
    have hself : (Expr.binary m op l r).givesNothing = false := rfl
    rw [hself, Expr.wantsVoid, htl, htr]
    cases hnl : l.givesNothing <;> cases hnr : r.givesNothing <;> simp_all
  | @unary m op e operand _ hm he ht =>
    have hne : operand ≠ .void := by
      rintro rfl
      exact not_unaryTy?_void ht
    refine .of_eq (.bind (lowers_expr hc hΓ e he) fun ⟨_, _⟩ => .bind lowers_freshTemp fun _ =>
      .bind (lowers_one _) fun _ => .pure _) ?_
    rw [givesNothing_of_ne he hne, Expr.wantsVoid]
    simp [Expr.givesNothing]
  | @call m f args ts _ hm ha ht =>
    obtain ⟨target, params, hf⟩ := exists_callee? hc ht
    have hargs := lowers_arguments hc hΓ args ha (ne_void_of_callTy? hΓ ht) params
    simp only [expr, callee_of_callee? hf, pure_bind]
    by_cases hv : t = .void
    · -- The result of a call that gives nothing cannot be taken.
      subst hv
      have hself : (Expr.call m f args).givesNothing = true := decide_eq_true hm
      simp only [takeResult_void, pure_bind]
      refine .of_eq (.bind hargs fun _ => .bind (lowers_one _) fun _ => lowers_voidValue _ _) ?_
      simp [hself]
    · have hself : (Expr.call m f args).givesNothing = false := by
        refine decide_eq_false fun h => hv ?_
        exact Option.some.inj (hm.symm.trans h)
      simp only [takeResult_of_ne hv, bind_assoc, pure_bind]
      refine .of_eq (.bind hargs fun _ => .bind (lowers_one _) fun _ => .bind lowers_freshTemp
        fun _ => .bind (lowers_one _) fun _ => .pure _) ?_
      rw [hself, Expr.wantsVoid]
      simp
  | @array m items element hm hi =>
    refine .of_eq (.bind lowers_freshTemp fun _ => .bind (lowers_one _) fun _ =>
      .bind (lowers_elements hc hΓ items hi _ _ _) fun _ => .pure _) ?_
    rw [Expr.wantsVoid]
    simp [Expr.givesNothing]
  | @matrix m rows shape hm hs hr =>
    refine .of_eq (.bind lowers_freshTemp fun _ => .bind (lowers_one _) fun _ =>
      .bind (lowers_matrixRows hc hΓ rows hr _ _) fun _ => .pure _) ?_
    rw [Expr.wantsVoid]
    simp [Expr.givesNothing]
  | @element m base row container index _ hm hb hr hi ht =>
    have hcontainer : container ≠ .void := by
      rintro rfl
      cases ht
    have hindex : index ≠ .void := by
      rintro rfl
      cases hi
    refine .of_eq (.bind (lowers_expr hc hΓ base hb) fun ⟨_, _⟩ => .bind (lowers_pinIf _ _)
      fun ⟨_, _⟩ => .bind (lowers_expr hc hΓ row hr) fun ⟨_, _⟩ => .bind lowers_freshTemp fun _ =>
        .bind (lowers_one _) fun _ => .pure _) ?_
    rw [givesNothing_of_ne hb hcontainer, givesNothing_of_ne hr hindex, Expr.wantsVoid]
    simp [Expr.givesNothing]
  | @entry m base row col container index index' _ hm hb hr hi hcol hj ht =>
    have hcontainer : container ≠ .void := by
      rintro rfl
      cases ht
    have hindex : index ≠ .void := by
      rintro rfl
      cases hi
    have hindex' : index' ≠ .void := by
      rintro rfl
      cases hj
    refine .of_eq (.bind (lowers_expr hc hΓ base hb) fun ⟨_, _⟩ => .bind (lowers_pinIf _ _)
      fun ⟨_, _⟩ => .bind (lowers_expr hc hΓ row hr) fun ⟨_, _⟩ => .bind (lowers_pinIf _ _)
        fun ⟨_, _⟩ => .bind (lowers_expr hc hΓ col hcol) fun ⟨_, _⟩ => .bind lowers_freshTemp
          fun _ => .bind (lowers_one _) fun _ => .pure _) ?_
    rw [givesNothing_of_ne hb hcontainer, givesNothing_of_ne hr hindex,
      givesNothing_of_ne hcol hindex', Expr.wantsVoid]
    simp [Expr.givesNothing]
termination_by structural e

theorem lowers_arguments {c : Context} {Γ : Env} (hc : c.Agrees Γ) (hΓ : Γ.Proper)
    (es : List Expr) : ∀ {ts : List Ty}, ExprsTyped Γ es ts → (∀ t ∈ ts, t ≠ .void) →
    ∀ params, Lowers (Expr.wantsVoidAny es) (arguments c params es) := by
  intro ts h hts params
  cases h with
  | nil => exact .pure _
  | @cons e es t ts he hes =>
    obtain ⟨ht, hts⟩ := List.forall_mem_cons.1 hts
    refine .of_eq (.bind (lowers_expr hc hΓ e he) fun ⟨_, _⟩ => .bind (lowers_widen _ _ _)
      fun ⟨_, _⟩ => .bind (lowers_one _) fun _ =>
        .bind (lowers_arguments hc hΓ es hes hts params.tail) fun _ => .pure _) ?_
    simp [Expr.wantsVoidAny, givesNothing_of_ne he ht]
termination_by structural es

theorem lowers_elements {c : Context} {Γ : Env} (hc : c.Agrees Γ) (hΓ : Γ.Proper)
    (es : List Expr) : ∀ {before after : Ty}, ElementsTyped Γ before es after →
    ∀ array element k, Lowers (Expr.wantsVoidAny es) (elements c array element k es) := by
  intro before after h array element k
  cases h with
  | nil => exact .pure _
  | @cons e es _ found joined _ he hj hes =>
    have hne : found ≠ .void := by
      rintro rfl
      cases hj
    refine .of_eq (.bind (lowers_expr hc hΓ e he) fun ⟨_, _⟩ => .bind (lowers_widen _ _ _)
      fun ⟨_, _⟩ => .bind (lowers_one _) fun _ =>
        .bind (lowers_elements hc hΓ es hes array element (k + 1)) fun _ => .pure _) ?_
    simp [Expr.wantsVoidAny, givesNothing_of_ne he hne]
termination_by structural es

theorem lowers_entries {c : Context} {Γ : Env} (hc : c.Agrees Γ) (hΓ : Γ.Proper)
    (es : List Expr) : EntriesTyped Γ es →
    ∀ matrix row k, Lowers (Expr.wantsVoidAny es) (entries c matrix row k es) := by
  intro h matrix row k
  cases h with
  | nil => exact .pure _
  | @cons e es t he ht hes =>
    have hne : t ≠ .void := by
      rintro rfl
      cases ht
    refine .of_eq (.bind (lowers_expr hc hΓ e he) fun ⟨_, _⟩ => .bind (lowers_widen _ _ _)
      fun ⟨_, _⟩ => .bind (lowers_one _) fun _ =>
        .bind (lowers_entries hc hΓ es hes matrix row (k + 1)) fun _ => .pure _) ?_
    simp [Expr.wantsVoidAny, givesNothing_of_ne he hne]
termination_by structural es

theorem lowers_matrixRows {c : Context} {Γ : Env} (hc : c.Agrees Γ) (hΓ : Γ.Proper)
    (rows : List (List Expr)) : ∀ {cols : Nat}, RowsTyped Γ cols rows →
    ∀ matrix k, Lowers (Expr.wantsVoidAnyRow rows) (matrixRows c matrix k rows) := by
  intro cols h matrix k
  cases h with
  | nil => exact .pure _
  | @cons _ es rows hlen he hes =>
    refine .of_eq (.bind (lowers_entries hc hΓ es he matrix k 0) fun _ =>
      .bind (lowers_matrixRows hc hΓ rows hes matrix (k + 1)) fun _ => .pure _) ?_
    simp [Expr.wantsVoidAnyRow]
termination_by structural rows

end

/-! ### Parts of statements -/

theorem lowers_widened {c : Context} {Γ : Env} (hc : c.Agrees Γ) (hΓ : Γ.Proper) {e : Expr}
    {t : Ty} (h : ExprTyped Γ e t) (expected : Ty) :
    Lowers (e.givesNothing || e.wantsVoid) (widened c e expected) :=
  .of_eq (.bind (lowers_expr hc hΓ e h) fun ⟨_, _⟩ => .bind (lowers_widen _ _ _) fun ⟨_, _⟩ =>
    .pure _) (by simp)

/-- What cannot be nothing fails only for want of values inside it. -/
theorem lowers_of_ne {c : Context} {Γ : Env} (hc : c.Agrees Γ) (hΓ : Γ.Proper) {e : Expr}
    {t : Ty} (h : ExprTyped Γ e t) (ht : t ≠ .void) : Lowers e.wantsVoid (expr c e) :=
  .of_eq (lowers_expr hc hΓ e h) (by rw [givesNothing_of_ne h ht, Bool.false_or])

theorem lowers_setVariable {c : Context} {Γ : Env} (hc : c.Agrees Γ) (hΓ : Γ.Proper) {x : Name}
    {b : Binding} {e : Expr} {t : Ty} (hx : x.binding = some b) (h : ExprTyped Γ e t)
    (ht : t ≠ .void) : Lowers e.wantsVoid (setVariable c x e) := by
  refine .of_eq (.bind (lowers_slotOf hx) fun ⟨_, ty⟩ => .bind (lowers_widened hc hΓ h ty)
    fun ⟨_, _⟩ => .bind (lowers_one _) fun _ => .pure _) ?_
  rw [givesNothing_of_ne h ht]
  simp

theorem lowers_prints {c : Context} {Γ : Env} (hc : c.Agrees Γ) (hΓ : Γ.Proper) (es : List Expr)
    (h : PrintedTyped Γ es) : Lowers (Expr.wantsVoidAny es) (prints c es) := by
  induction h with
  | nil => exact .pure _
  | @cons e es t he ht hes ih =>
    refine .of_eq (.bind (lowers_of_ne hc hΓ he ht) fun ⟨_, _⟩ => .bind (lowers_one _) fun _ =>
      .bind ih fun _ => .pure _) ?_
    simp [Expr.wantsVoidAny]

theorem lowers_callStatement {c : Context} {Γ : Env} (hc : c.Agrees Γ) (hΓ : Γ.Proper) {m : Mark}
    {f : String} {args : List Expr} {t : Ty} (h : ExprTyped Γ (.call m f args) t) (line : Nat) :
    Lowers (Expr.wantsVoidAny args) (callStatement c f args line) := by
  cases h with
  | call hm ha ht =>
    obtain ⟨target, params, hf⟩ := exists_callee? hc ht
    have hargs := lowers_arguments hc hΓ args ha (ne_void_of_callTy? hΓ ht) params
    simp only [callStatement, callee_of_callee? hf, pure_bind]
    exact .of_eq (.bind hargs fun _ => .bind (lowers_one _) fun _ => .pure _) (by simp)

/-- Nothing is put into a container only if the type of its elements is unknown. -/
theorem holdsUnknown_of_store {Γ : Env} (hΓ : Γ.Proper) {x : Name} {b : Binding} {sub : Subscript}
    {t : Ty} (hx : Bound Γ x b) (hs : SubscriptTyped Γ b.ty sub t) (ht : t.accepts .void = true) :
    x.holdsUnknown = true := by
  obtain ⟨hvalues, hne⟩ := hΓ.bound hx
  have hunknown : b.ty.element? = some .unknown := by
    cases hs with
    | element hr hi hel =>
      have hv := Ty.ne_void_of_hasValues (hasValues_elementTy? hel hvalues)
      have hu : t = .unknown := by
        by_contra hu
        rw [Ty.not_accepts_void hu hv] at ht
        cases ht
      subst hu
      unfold elementTy? at hel
      split at hel <;> cases hel
      · exact absurd ‹_› hne
      · rename_i hty
        rw [hty]
        rfl
    | entry hr hi hc hj hel =>
      unfold elementTy? at hel
      split at hel
      · exact absurd ‹_› hne
      · cases ‹true = false›
      · cases hel
        have hfloat : Ty.float.accepts .void = false := rfl
        rw [hfloat] at ht
        cases ht
      · cases hel
  unfold Name.holdsUnknown
  rw [hx.binding]
  exact decide_eq_true hunknown

theorem lowers_setElement {c : Context} {Γ : Env} (hc : c.Agrees Γ) (hΓ : Γ.Proper) {x : Name}
    {b : Binding} {sub : Subscript} {e : Expr} {t found : Ty} (hx : Bound Γ x b)
    (hs : SubscriptTyped Γ b.ty sub t) (h : ExprTyped Γ e found) (ht : t.accepts found = true) :
    Lowers (sub.row.wantsVoid || Expr.wantsVoidOptional sub.col ||
      (e.givesNothing && x.holdsUnknown || e.wantsVoid)) (setElement c x sub e) := by
  have hgives : (e.givesNothing && x.holdsUnknown) = e.givesNothing := by
    cases hn : e.givesNothing with
    | false => rfl
    | true =>
      obtain rfl := eq_void_of_givesNothing h hn
      exact holdsUnknown_of_store hΓ hx hs ht
  rw [hgives]
  have hvalue := lowers_widened hc hΓ h
  cases hs with
  | @element row index t hr hi hel =>
    have hindex : index ≠ .void := by
      rintro rfl
      cases hi
    simp only [setElement, pure_bind]
    refine .of_eq (.bind (lowers_slotOf hx.binding) fun _ =>
      .bind (lowers_of_ne hc hΓ hr hindex) fun _ => .bind (lowers_pinIf _ _) fun _ =>
        .bind (hvalue _) fun _ => .bind (lowers_one _) fun _ => .pure _) ?_
    simp [Expr.wantsVoidOptional]
  | @entry row col index index' t hr hi hcol hj hel =>
    have hindex : index ≠ .void := by
      rintro rfl
      cases hi
    have hindex' : index' ≠ .void := by
      rintro rfl
      cases hj
    simp only [setElement, pure_bind]
    refine .of_eq (.bind (lowers_slotOf hx.binding) fun _ =>
      .bind (lowers_of_ne hc hΓ hr hindex) fun _ => .bind (lowers_pinIf _ _) fun _ =>
        .bind (lowers_of_ne hc hΓ hcol hindex') fun _ => .bind (lowers_pinIf _ _) fun _ =>
          .bind (hvalue _) fun _ => .bind (lowers_one _) fun _ => .pure _) ?_
    simp [Expr.wantsVoidOptional, Bool.or_assoc]

/-! ### Statements -/

/-- Lowering is inside a loop where analysis is. -/
def Context.Suits (c : Context) (σ : Scene) : Prop := σ.loop = true → c.loop.isSome = true

theorem Context.Suits.inLoop (c : Context) (σ : Scene) (labels : LoopLabels) :
    ({ c with loop := some labels } : Context).Suits σ.inLoop := fun _ => rfl

theorem lowers_loopControl {c : Context} {σ : Scene} (hs : c.Suits σ) (hl : σ.loop = true)
    (keyword : Keyword) (target : LoopLabels → Label) (line : Nat) :
    Lowers false (loopControl c keyword target line) := by
  obtain ⟨labels, hlabels⟩ := Option.isSome_iff_exists.1 (hs hl)
  unfold loopControl
  rw [hlabels]
  exact lowers_one _

theorem ne_void_of_maybeBool {t : Ty} (h : maybeBool t = true) : t ≠ .void := by
  rintro rfl
  cases h

theorem ne_void_of_maybeInt {t : Ty} (h : maybeInt t = true) : t ≠ .void := by
  rintro rfl
  cases h

theorem ne_void_of_accepts {t found : Ty} (ht : t.hasValues = true ∧ t ≠ .unknown)
    (h : t.accepts found = true) : found ≠ .void := by
  rintro rfl
  rw [Ty.not_accepts_void ht.2 (Ty.ne_void_of_hasValues ht.1)] at h
  cases h

theorem ne_void_of_declaredTy? {declared found t : Ty} (hw : declared.isWritten = true)
    (h : declaredTy? declared found = some t) : found ≠ .void := by
  unfold declaredTy? at h
  split at h
  · rename_i hd
    have ht := And.intro (Ty.hasValues_of_isWritten hw hd.1) (Ty.ne_unknown_of_isWritten hw)
    exact ne_void_of_accepts ht hd.2
  · cases h

mutual

/-- Lowering a statement fails only if a value is wanted in it that is not there. -/
theorem lowers_stmt (st : Stmt) : ∀ {c : Context} {σ : Scene} {Γ Γ' : Env} {k k' : Nat},
    StmtTyped σ Γ k st Γ' k' → c.Agrees Γ → c.Suits σ → Γ.Proper →
    (∀ t, σ.returns = some t → t.isWritten = true) → Lowers st.wantsVoid (stmt c st) := by
  intro c σ Γ Γ' k k' h hc hs hΓ hr
  have hline := lowers_atLine
  cases h with
  | @decl _ _ _ _ _ loc x declared found t init hw hi ht hx =>
    exact .bind (hline _) fun _ =>
      lowers_setVariable hc hΓ hx.binding hi (ne_void_of_declaredTy? hw ht)
  | assign hx hv ht =>
    exact .bind (hline _) fun _ =>
      lowers_setVariable hc hΓ hx.binding hv (ne_void_of_accepts (hΓ.bound hx) ht)
  | store hx hv hsub ht =>
    exact .of_eq (.bind (hline _) fun _ => lowers_setElement hc hΓ hx hsub hv ht) (Bool.false_or _)
  | @cond _ _ _ _ _ loc e t body he hb =>
    have hcondition := lowers_of_ne hc hΓ he.typed (ne_void_of_maybeBool he.bool)
    have hbody := lowers_block body hb hc hs hΓ.enter hr
    refine .of_eq (.bind (hline _) fun _ => .bind hcondition fun ⟨_, _⟩ =>
      .bind lowers_freshLabel fun _ => .bind (lowers_one _) fun _ => .bind hbody fun _ =>
        .bind (lowers_one _) fun _ => .pure _) ?_
    simp [Stmt.wantsVoid]
  | @branch _ _ _ _ _ _ _ loc e t body orElse he hb ho =>
    have hcondition := lowers_of_ne hc hΓ he.typed (ne_void_of_maybeBool he.bool)
    have hbody := lowers_block body hb hc hs hΓ.enter hr
    have hother := lowers_block orElse ho hc hs hΓ.enter hr
    refine .of_eq (.bind (hline _) fun _ => .bind hcondition fun ⟨_, _⟩ =>
      .bind lowers_freshLabel fun _ => .bind lowers_freshLabel fun _ => .bind (lowers_one _)
        fun _ => .bind hbody fun _ => .bind (lowers_one _) fun _ => .bind (lowers_one _) fun _ =>
          .bind hother fun _ => .bind (lowers_one _) fun _ => .pure _) ?_
    simp [Stmt.wantsVoid]
  | @«while» _ _ _ _ _ loc e t body he hb =>
    have hcondition := lowers_of_ne hc hΓ he.typed (ne_void_of_maybeBool he.bool)
    have hbody := fun labels =>
      @lowers_block body { c with loop := some labels } _ _ _ _ _ hb hc (.inLoop c σ labels)
        hΓ.enter hr
    refine .of_eq (.bind (hline _) fun _ => .bind lowers_freshLabel fun _ =>
      .bind lowers_freshLabel fun _ => .bind (lowers_one _) fun _ => .bind hcondition fun ⟨_, _⟩ =>
        .bind (lowers_one _) fun _ => .bind (hbody _) fun _ => .bind (lowers_one _) fun _ =>
          .bind (lowers_one _) fun _ => .pure _) ?_
    simp [Stmt.wantsVoid]
  | @«repeat» _ _ _ _ _ loc count t body he ht hb =>
    have hcount := lowers_of_ne hc hΓ he (ne_void_of_maybeInt ht)
    have hbody := fun labels =>
      @lowers_block body { c with loop := some labels } _ _ _ _ _ hb hc (.inLoop c σ labels)
        hΓ.enter hr
    refine .of_eq (.bind (hline _) fun _ => .bind hcount fun _ => .bind lowers_freshTemp fun _ =>
      .bind (lowers_one _) fun _ => .bind lowers_freshTemp fun _ => .bind (lowers_one _) fun _ =>
        .bind lowers_freshLabel fun _ => .bind lowers_freshLabel fun _ => .bind lowers_freshLabel
          fun _ => .bind (lowers_one _) fun _ => .bind lowers_freshTemp fun _ =>
            .bind (lowers_one _) fun _ => .bind (lowers_one _) fun _ => .bind (hbody _) fun _ =>
              .bind (hline _) fun _ => .bind (lowers_one _) fun _ => .bind (lowers_one _) fun _ =>
                .bind (lowers_one _) fun _ => .bind (lowers_one _) fun _ => .pure _) ?_
    simp [Stmt.wantsVoid]
  | @«for» _ _ Γ₁ _ _ _ _ _ loc init update e t body hsi hi he hsu hnd hu hb =>
    have hΓ₁ := hi.proper hΓ.enter
    have hc₁ : c.Agrees Γ₁ := fun f => by rw [hi.callee?_eq]; exact hc f
    have hinit := lowers_stmt init hi hc hs hΓ.enter hr
    have hcondition := lowers_of_ne hc₁ hΓ₁ he.typed (ne_void_of_maybeBool he.bool)
    have hupdate := lowers_stmt update hu hc₁ hs hΓ₁ hr
    have hbody := fun labels =>
      @lowers_block body { c with loop := some labels } _ _ _ _ _ hb hc₁ (.inLoop c σ labels)
        hΓ₁.enter hr
    refine .of_eq (.bind (hline _) fun _ => .bind hinit fun _ => .bind (hline _) fun _ =>
      .bind lowers_freshLabel fun _ => .bind lowers_freshLabel fun _ => .bind lowers_freshLabel
        fun _ => .bind (lowers_one _) fun _ => .bind hcondition fun _ => .bind (lowers_one _)
          fun _ => .bind (hbody _) fun _ => .bind (hline _) fun _ => .bind (lowers_one _) fun _ =>
            .bind hupdate fun _ => .bind (hline _) fun _ => .bind (lowers_one _) fun _ =>
              .bind (lowers_one _) fun _ => .pure _) ?_
    simp [Stmt.wantsVoid]
  | «break» hl => exact .bind (hline _) fun _ => lowers_loopControl hs hl _ _ _
  | «continue» hl => exact .bind (hline _) fun _ => lowers_loopControl hs hl _ _ _
  | leave hf => exact .bind (hline _) fun _ => lowers_one _
  | @«return» _ _ _ loc e returns t hf hv he ht =>
    have hreturns := And.intro (Ty.hasValues_of_isWritten (hr _ hf) hv)
      (Ty.ne_unknown_of_isWritten (hr _ hf))
    have hgives := givesNothing_of_ne he (ne_void_of_accepts hreturns ht)
    refine .of_eq (.bind (hline _) fun _ => .bind (lowers_widened hc hΓ he _) fun _ =>
      .bind (lowers_one _) fun _ => .pure _) ?_
    simp [Stmt.wantsVoid, hgives]
  | print hv => exact .bind (hline _) fun _ => lowers_prints hc hΓ _ hv
  | input hx hread =>
    exact .bind (hline _) fun _ => .bind (lowers_slotOf hx.binding) fun ⟨_, _⟩ => lowers_one _
  | @expr _ _ _ loc e t hsa he =>
    cases e with
    | call m f args => exact .bind (hline _) fun _ => lowers_callStatement hc hΓ he _
    | index m base row col =>
      have hgives : (Expr.index m base row col).givesNothing = false := rfl
      refine .of_eq (.bind (hline _) fun _ => .bind (lowers_expr hc hΓ _ he) fun _ => .pure _) ?_
      rw [hgives, Stmt.wantsVoid]
      simp
    | _ => cases hsa
termination_by structural st

theorem lowers_block (ss : List Stmt) : ∀ {c : Context} {σ : Scene} {Γ Γ' : Env} {k k' : Nat},
    BlockTyped σ Γ k ss Γ' k' → c.Agrees Γ → c.Suits σ → Γ.Proper →
    (∀ t, σ.returns = some t → t.isWritten = true) →
    Lowers (Stmt.wantsVoidAny ss) (block c ss) := by
  intro c σ Γ Γ' k k' h hc hs hΓ hr
  cases h with
  | nil => exact .pure _
  | @cons _ _ Γ₁ _ _ _ _ st ss hst hss =>
    have hc₁ : c.Agrees Γ₁ := fun f => by rw [hst.callee?_eq]; exact hc f
    refine .of_eq (.bind (lowers_stmt st hst hc hs hΓ hr) fun _ =>
      .bind (lowers_block ss hss hc₁ hs (hst.proper hΓ) hr) fun _ => .pure _) ?_
    simp [Stmt.wantsVoidAny]
termination_by structural ss

end

/-! ### Programs -/

/-- The signatures of a program are those that are in sight at its start. -/
theorem agrees_context (p : Program) : p.context.Agrees ⟨[], functionEntries p⟩ := by
  intro f
  change ((signatures p).get? f).map _ = _
  induction p using List.reverseRecOn with
  | nil => rfl
  | append_singleton p st ih =>
    have hentries : functionEntries (p ++ [st]) = functionEntries [st] ++ functionEntries p := by
      simp [functionEntries]
    rw [hentries]
    rw [signatures, List.foldl_append, ← signatures]
    cases st with
    | function loc name returns params body =>
      simp only [List.foldl_cons, List.foldl_nil, Store.get?_set, functionEntries,
        List.filterMap_cons, List.filterMap_nil, List.reverse_singleton, List.singleton_append,
        Env.callee?, List.lookup_cons]
      by_cases hf : name = f
      · subst hf
        simp
      · have hne : (f == name) = false := by simpa using Ne.symm hf
        rw [if_neg hf, hne]
        exact ih
    | _ => exact ih

theorem lowers_parameters {ps : List Param} : ∀ {Γ Γ' : Env} {k k' : Nat},
    ParamsTyped Γ k ps Γ' k' → Lowers false (parameters ps) := by
  induction ps with
  | nil => exact fun _ => .pure _
  | cons p ps ih =>
    intro Γ Γ' k k' h
    cases h with
    | cons hp hw hx hps =>
      exact .bind (lowers_slotOf hx.binding) fun _ => .bind (ih hps) fun _ => .pure _

theorem lowers_topLevel {c : Context} {p : Program} : ∀ {Γ Γ' : Env} {k k' : Nat},
    TopTyped Γ k p Γ' k' → c.Agrees Γ → Γ.Proper →
    Lowers (Stmt.wantsVoidAny (p.filter fun st => !st.isFunction)) (topLevel c p) := by
  induction p with
  | nil => exact fun _ _ _ => lowers_one _
  | cons st rest ih =>
    intro Γ Γ' k k' h hc hΓ
    cases h with
    | function hw hp hb h => exact ih h hc hΓ
    | @cons _ Γ₁ _ _ _ _ _ _ hs h =>
      have hf := isFunction_of_stmtTyped hs
      have hc₁ : c.Agrees Γ₁ := fun f => by rw [hs.callee?_eq]; exact hc f
      have hstmt := lowers_stmt st hs hc nofun hΓ nofun
      have hrest := ih h hc₁ (hs.proper hΓ)
      have htop : topLevel c (st :: rest) =
          (stmt c st >>= fun code => topLevel c rest >>= fun rest => pure (code ++ rest)) := by
        cases st <;> first | rfl | cases hf
      rw [htop, List.filter_cons_of_pos (by simp [hf]), Stmt.wantsVoidAny]
      exact .of_eq (.bind hstmt fun _ => .bind hrest fun _ => .pure _) (by simp)

theorem lowers_functions {c : Context} {p : Program} : ∀ {Γ Γ' : Env} {k k' : Nat},
    TopTyped Γ k p Γ' k' → c.Agrees Γ → Γ.Proper →
    Lowers (Stmt.wantsVoidAny (p.filter (·.isFunction))) (functions c p) := by
  induction p with
  | nil => exact fun _ _ _ => .pure _
  | cons st rest ih =>
    intro Γ Γ' k k' h hc hΓ
    cases h with
    | @function _ Γ₁ _ _ _ _ _ _ loc name returns params body _ hw hp hb h =>
      have hc₁ : c.Agrees Γ₁ := fun f => by rw [hp.callee?_eq]; exact hc f
      have hbody := @lowers_block body { c with returns := returns, loop := none } _ _ _ _ _ hb hc₁
        nofun (hp.proper hΓ.enter) (by rintro t ⟨⟩; exact hw)
      have hrest := ih h hc hΓ
      have hregion := Lowers.bind (lowers_atLine loc.line) fun _ =>
        .bind (lowers_one (.label (.function name))) fun enter =>
          .bind (lowers_parameters hp) fun vars => .bind hbody fun code =>
            .bind (lowers_atLine loc.line) fun _ => .bind (lowers_one (.return none)) fun leave =>
              .pure (enter ++ code ++ leave,
                (⟨name, .function name, vars, returns ≠ .void, loc.line⟩ : FunctionInfo))
      rw [List.filter_cons_of_pos rfl, Stmt.wantsVoidAny, Stmt.wantsVoid]
      refine .of_eq (.bind hregion fun _ => .bind hrest fun _ => .pure _) ?_
      simp
    | @cons _ Γ₁ _ _ _ _ _ _ hs h =>
      have hf := isFunction_of_stmtTyped hs
      have hc₁ : c.Agrees Γ₁ := fun f => by rw [hs.callee?_eq]; exact hc f
      have hrest := ih h hc₁ (hs.proper hΓ)
      have hskip : functions c (st :: rest) = functions c rest := by
        cases st <;> first | rfl | cases hf
      rw [hskip, List.filter_cons_of_neg (by simp [hf])]
      exact hrest

theorem wantsVoidAny_filter (p : Program) :
    (Stmt.wantsVoidAny (p.filter fun st => !st.isFunction) ||
      Stmt.wantsVoidAny (p.filter (·.isFunction))) = Stmt.wantsVoidAny p := by
  induction p with
  | nil => rfl
  | cons st rest ih =>
    rw [Stmt.wantsVoidAny, ← ih]
    cases hf : st.isFunction with
    | true =>
      rw [List.filter_cons_of_neg (by simp [hf]), List.filter_cons_of_pos hf, Stmt.wantsVoidAny,
        Bool.or_left_comm]
    | false =>
      rw [List.filter_cons_of_pos (by simp [hf]), List.filter_cons_of_neg (by simp [hf]),
        Stmt.wantsVoidAny, Bool.or_assoc]

end Lowering

open Lowering

/-- Lowering a program that analysis accepts fails exactly if a value is wanted in it that is
not there. -/
theorem ProgramTyped.lowers {p : Program} (h : ProgramTyped p) :
    if Stmt.wantsVoidAny p then ∃ f line, p.lower = .error (.voidValue f line)
    else ∃ code, p.lower = .ok code := by
  obtain ⟨Γ, k, htop⟩ := h.top
  have hΓ := htop.proper
  have hc := agrees_context p
  have hprogram := Lowers.bind (lowers_topLevel htop hc hΓ) fun top =>
    .bind (lowers_functions htop hc hΓ) fun regions =>
      .pure (⟨top ++ regions.1, regions.2⟩ : Code)
  have hat := hprogram ⟨0, 0, 0⟩
  rw [Bool.or_false, wantsVoidAny_filter] at hat
  have hlower : p.lower =
      ((Lowering.topLevel p.context p >>= fun top => functions p.context p >>= fun regions =>
        pure (⟨top ++ regions.1, regions.2⟩ : Code) : Lower Code) ⟨0, 0, 0⟩ >>=
          fun r => pure r.1) :=
    rfl
  rw [hlower]
  split
  · rename_i hw
    rw [if_pos hw] at hat
    obtain ⟨f, line, hat⟩ := hat
    exact ⟨f, line, by rw [hat]; rfl⟩
  · rename_i hw
    rw [if_neg hw] at hat
    obtain ⟨⟨code, s⟩, hat⟩ := hat
    exact ⟨code, by rw [hat]; rfl⟩

end NumericScript
