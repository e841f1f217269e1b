import NumericScript.Proofs.Analysis.Slots
import NumericScript.Proofs.Lowering.Complete
import NumericScript.Proofs.Lowering.Supply
import NumericScript.Proofs.Typing.Notes

/-! # Types along the code of expressions

The code of an annotated expression takes what is known before it to what is known after it: the
operand that holds the value of the expression is of the type that is written at it.  Temporaries
that were in use before keep what they hold.

* `Evaluates`: what is said of the code of an expression.
* `evaluates_expr`: that it is so for all forms of expressions. -/

namespace NumericScript

open Lowering
open Analysis hiding State

namespace Typing

/-! ### Temporaries -/

/-- What is known of temporaries. -/
abbrev Temps := Nat → Option Content

/-- A temporary gets a content. -/
def Temps.set (τ : Temps) (u : Nat) (d : Content) : Temps :=
  fun u' => if u' = u then some d else τ u'

/-- The temporaries below a bound are the same. -/
def Below (n : Nat) (τ τ' : Temps) : Prop := ∀ u, u < n → τ' u = τ u

namespace Below

variable {n n' : Nat} {τ τ₁ τ₂ : Temps}

theorem refl (n : Nat) (τ : Temps) : Below n τ τ := fun _ _ => rfl

theorem trans (h : Below n τ τ₁) (h' : Below n τ₁ τ₂) : Below n τ τ₂ :=
  fun u hu => (h' u hu).trans (h u hu)

theorem mono (h : Below n τ τ₁) (hn : n' ≤ n) : Below n' τ τ₁ :=
  fun u hu => h u (Nat.lt_of_lt_of_le hu hn)

theorem set {u : Nat} (hu : n ≤ u) (d : Content) : Below n τ (τ.set u d) := by
  intro u' hu'
  exact if_neg (by omega)

end Below

theorem Temps.set_self (τ : Temps) (u : Nat) (d : Content) : τ.set u d u = some d := if_pos rfl

/-- An operand is no temporary from a bound on. -/
def BelowTemp (n : Nat) (a : Operand) : Prop := ∀ u, a = .place (.temp u) → u < n

/-! ### Expressions in a scope -/

/-- What is known in a scope, while arguments were passed. -/
def within (Γ : Env) (returns : Ty) (args : List Ty) (τ : Temps) : Assertion :=
  ⟨Γ.locals, τ, args, none, returns⟩

/-- What is in sight is known to lowering, and has the types that are known everywhere. -/
structure Scoped (c : Context) (I : Interface) (Γ : Env) (k : Nat) : Prop where
  agrees : c.Agrees Γ
  proper : Γ.Proper
  slotted : Γ.Slotted k
  roots : Γ.Roots I.globals
  callees : I.callees = Γ.callee?

section

variable {shapes : Bool} {c : Context} {I : Interface} {Γ : Env} {k : Nat} {returns t : Ty}
  {args : List Ty} {τ τ' : Temps} {a a' : Operand} {s s' : State} {code : List Instr}

theorem OperandHas.carry {n : Nat} {args' : List Ty}
    (h : OperandHas I (within Γ returns args τ) a t) (ha : BelowTemp n a) (hτ : Below n τ τ') :
    OperandHas I (within Γ returns args' τ') a t := by
  cases h with
  | const => exact .const
  | temp hu => exact .temp ((hτ _ (ha _ rfl)).trans hu)
  | «local» hl => exact .local hl
  | global hg => exact .global hg
  | returned hr => cases hr

theorem Scoped.bound (returns : Ty) (args : List Ty) (h : Scoped c I Γ k) {x : Name} {b : Binding}
    (hx : Bound Γ x b) :
    OperandHas I (within Γ returns args τ) (.place (.var b.variable)) b.ty := by
  have hlocal := fun hb => h.slotted.bound_local hx hb
  have hglobal := fun hb => h.slotted.bound_global hx hb h.roots
  obtain ⟨slot, ty, storage⟩ := b
  cases storage with
  | «local» => exact .local (hlocal rfl)
  | global => exact .global (hglobal rfl)

variable (shapes I Γ returns args)

/-- Code evaluates an expression: behind it, an operand has the type of the expression.  Only
temporaries from the first bound on are changed, and the operand is none from the second on. -/
def Evaluates (lo hi : Nat) (τ : Temps) (code : List Instr) (notes : List Note) (a : Operand)
    (t : Ty) : Prop :=
  ∃ τ', Below lo τ τ' ∧
    Flows shapes I (within Γ returns args τ) code notes (within Γ returns args τ') ∧
    OperandHas I (within Γ returns args τ') a t ∧ BelowTemp hi a

variable {shapes I Γ returns args}

/-- An operand that needs no code. -/
theorem Evaluates.nil {n : Nat} (h : OperandHas I (within Γ returns args τ) a t)
    (ha : BelowTemp n a) : Evaluates shapes I Γ returns args n n τ [] [] a t :=
  ⟨τ, .refl n τ, .nil (.refl _), h, ha⟩

/-- An operation puts the value into a new temporary. -/
theorem Evaluates.fresh {op : Op} {n : Note}
    (hop : OpTyped shapes I (within Γ returns args τ) op n
      ((within Γ returns args τ).setTemp s.temps (.value t))) :
    Evaluates shapes I Γ returns args s.temps s.nextTemp.temps τ [s.instr op] [n]
      (.place s.temp) t := by
  refine ⟨τ.set s.temps (.value t), .set (Nat.le_refl _) _, .one hop, .temp (τ.set_self _ _), ?_⟩
  intro u hu
  cases hu
  exact Nat.lt_succ_self _

/-! ### Keeping and widening values -/

/-- Whether an operand is a variable. -/
def IsVariable (a : Operand) : Prop := ∃ v, a = .place (.var v)

theorem evaluates_pins {changes : Bool} {e : Expr} {keep : List Instr}
    (hk : Pins changes s a keep a' s') (hname : e.isName = true ↔ IsVariable a) (hty : e.ty = t)
    (ha : OperandHas I (within Γ returns args τ) a t) (hb : BelowTemp s.temps a) :
    Evaluates shapes I Γ returns args s.temps s'.temps τ keep (Note.pin changes e) a' t := by
  cases hk with
  | keep hkeep =>
    have hnone : (changes && e.isName) = false := by
      cases hc : changes with
      | false => rfl
      | true =>
        rw [Bool.true_and, Bool.eq_false_iff]
        intro hn
        obtain ⟨v, hv⟩ := hname.1 hn
        exact hkeep hc v hv
    rw [Note.pin, hnone, if_neg Bool.false_ne_true]
    exact .nil ha hb
  | @pin v hchanges =>
    have hn : e.isName = true := hname.2 ⟨v, rfl⟩
    rw [Note.pin, if_pos (by rw [hchanges, hn]; rfl), hty]
    exact .fresh (.copy ha (.inr (Ty.fits_self t)) .temp)

theorem widenedTy_of_ne {found expected : Ty} (h : ¬ (found = .int ∧ expected = .float)) :
    Note.widenedTy found expected = found := if_neg h

theorem evaluates_widens {e : Expr} {expected : Ty} {widening : List Instr}
    (hw : Widens s e.ty expected a widening a' s')
    (hint : e.isInt = true ↔ ∃ n, a = .const (.int n))
    (ha : OperandHas I (within Γ returns args τ) a e.ty) (hb : BelowTemp s.temps a) :
    Evaluates shapes I Γ returns args s.temps s'.temps τ widening (Note.widen e expected) a'
      (Note.widenedTy e.ty expected) := by
  generalize hty : e.ty = found at hw ha
  cases hw with
  | same hne =>
    have hnone : ¬ (e.ty = .int ∧ expected = .float ∧ e.isInt = false) := by
      rw [hty]
      exact fun h => hne ⟨h.1, h.2.1⟩
    rw [Note.widen, if_neg hnone, widenedTy_of_ne hne]
    exact .nil ha hb
  | @const n =>
    have hnone : ¬ (e.ty = .int ∧ Ty.float = .float ∧ e.isInt = false) := by
      rw [hint.2 ⟨n, rfl⟩]
      exact fun h => absurd h.2.2 (by simp)
    rw [Note.widen, if_neg hnone]
    refine .nil ?_ (fun u hu => by cases hu)
    exact @OperandHas.const I _ (.float (.ofInt64 n))
  | widen hne =>
    have hliteral : e.isInt = false := by
      rw [Bool.eq_false_iff]
      intro hi
      obtain ⟨n, hn⟩ := hint.1 hi
      exact hne n hn
    rw [Note.widen, if_pos ⟨hty, rfl, hliteral⟩]
    exact .fresh (.widen ha .temp)

/-- What form of operand holds the value of an expression. -/
theorem forms_of_exprCode {e : Expr} (h : ExprCode c s e code a s') :
    (e.isName = true ↔ IsVariable a) ∧ (e.isInt = true ↔ ∃ n, a = .const (.int n)) ∧
      (e.isLiteral = true ↔ ∃ n, a = .const n) := by
  cases h <;> simp [Expr.isName, Expr.isInt, Expr.isLiteral, IsVariable, State.temp]

/-! ### Elements of literals -/

/-- The values of the first type go into a container of the second, after they were widened if
need be. -/
def Joins (found element : Ty) : Prop :=
  found = .unknown ∨ found = element ∨ found = .int ∧ element = .float

theorem Joins.trans {t₁ t₂ t₃ : Ty} (h : Joins t₁ t₂) (h' : Joins t₂ t₃) : Joins t₁ t₃ := by
  rcases h with rfl | rfl | ⟨rfl, rfl⟩
  · exact .inl rfl
  · exact h'
  · rcases h' with h' | rfl | ⟨h', -⟩
    · cases h'
    · exact .inr (.inr ⟨rfl, rfl⟩)
    · cases h'

theorem joins_of_joinElement? {element found joined : Ty}
    (h : joinElement? element found = some joined) : Joins element joined ∧ Joins found joined := by
  unfold joinElement? at h
  split at h
  · cases h
  · cases h
    exact ⟨.inr (.inl rfl), .inl rfl⟩
  · cases h
    exact ⟨.inl rfl, .inr (.inl rfl)⟩
  · cases h
    exact ⟨.inr (.inr ⟨rfl, rfl⟩), .inr (.inl rfl)⟩
  · cases h
    exact ⟨.inr (.inl rfl), .inr (.inr ⟨rfl, rfl⟩)⟩
  · split at h <;> cases h
    rename_i heq
    exact ⟨.inr (.inl heq), .inr (.inl rfl)⟩

theorem joins_of_elementsTyped {es : List Expr} : ∀ {before after : Ty},
    ElementsTyped Γ before es after → Joins before after := by
  induction es with
  | nil =>
    intro before after h
    cases h
    exact .inr (.inl rfl)
  | cons e es ih =>
    intro before after h
    cases h with
    | cons he hj hes => exact (joins_of_joinElement? hj).1.trans (ih hes)

theorem Joins.moves {found element : Ty} (h : Joins found element) :
    Moves shapes (Note.widenedTy found element) element := by
  rcases h with rfl | rfl | ⟨rfl, rfl⟩
  · exact .inl rfl
  · rw [widenedTy_of_ne (by rintro ⟨rfl, h⟩; cases h)]
    exact .inr (Ty.fits_self _)
  · exact .inr rfl

/-- What a place takes goes into it after it was widened if need be. -/
theorem moves_of_accepts {expected found : Ty} (h : expected.accepts found = true) :
    Moves shapes (Note.widenedTy found expected) expected := by
  by_cases hw : found = .int ∧ expected = .float
  · obtain ⟨rfl, rfl⟩ := hw
    exact .inr rfl
  · rw [widenedTy_of_ne hw]
    exact Ty.fits_of_accepts h hw

/-! ### Calls -/

theorem passed_of_length_eq {params : List Ty} {es : List Expr} (h : params.length = es.length) :
    Note.passed params es = params := by
  induction es generalizing params with
  | nil => exact (List.length_eq_zero_iff.1 h).symm
  | cons e es ih =>
    cases params with
    | nil => cases h
    | cons p params => exact congrArg (p :: ·) (ih (Nat.succ.inj h))

theorem passed_nil {es : List Expr} : ∀ {ts : List Ty}, ExprsTyped Γ es ts →
    Note.passed [] es = ts := by
  induction es with
  | nil =>
    intro ts h
    cases h
    rfl
  | cons e es ih =>
    intro ts h
    cases h with
    | cons he hes =>
      change e.ty :: Note.passed [] es = _
      rw [ty_of_exprTyped he, ih hes]

theorem length_of_exprsTyped {es : List Expr} : ∀ {ts : List Ty}, ExprsTyped Γ es ts →
    ts.length = es.length := by
  induction es with
  | nil =>
    intro ts h
    cases h
    rfl
  | cons e es ih =>
    intro ts h
    cases h with
    | cons he hes => exact congrArg (· + 1) (ih hes)

/-- What a call calls that analysis has found a type for. -/
inductive Calls (Γ : Env) (f : String) (ts : List Ty) : Callee → List Ty → Ty → Prop where
  | user {params : List Ty} {returns : Ty} (hf : Γ.callee? f = some (params, returns))
      (hlen : params.length = ts.length)
      (ha : (params.zip ts).all (fun p => p.1.accepts p.2) = true) :
      Calls Γ f ts (.user f) params returns
  | builtin {b : Builtin} (ha : b.Accepts ts) : Calls Γ f ts (.builtin b) [] b.returns

theorem calls_of_callTy? {f : String} {ts params : List Ty} {target : Callee}
    (hc : c.Agrees Γ) (hf : Lowering.callee? c f = some (target, params, returns))
    (ht : Γ.callTy? f ts = some t) : t = returns ∧ Calls Γ f ts target params returns := by
  have hcf := hc f
  unfold Env.callTy? at ht
  unfold Lowering.callee? at hf
  cases hs : c.signatures.get? f with
  | some sig =>
    rw [hs] at hf
    cases hf
    rw [hs, Option.map_some] at hcf
    rw [← hcf] at ht
    dsimp only at ht
    split at ht <;> cases ht
    rename_i hargs
    exact ⟨rfl, .user hcf.symm hargs.1 hargs.2⟩
  | none =>
    rw [hs] at hf
    rw [hs, Option.map_none] at hcf
    rw [← hcf] at ht
    dsimp only at ht
    obtain ⟨b, hb, hfb⟩ := Option.map_eq_some_iff.1 hf
    cases hfb
    rw [hb] at ht
    dsimp only at ht
    split at ht <;> cases ht
    rename_i hargs
    exact ⟨rfl, .builtin hargs⟩

/-- The parameters of a function accept the arguments; nothing is asked for the arguments of a
builtin. -/
def Passes (params ts : List Ty) : Prop :=
  params = [] ∨ params.length = ts.length ∧ (params.zip ts).all (fun p => p.1.accepts p.2) = true

theorem Calls.passes {f : String} {ts params : List Ty} {target : Callee}
    (h : Calls Γ f ts target params returns) : Passes params ts := by
  cases h with
  | user hf hlen ha => exact .inr ⟨hlen, ha⟩
  | builtin ha => exact .inl rfl

/-- The code of a call: behind it, the arguments are used up, and if the call gives something this
is at hand. -/
theorem Calls.flows (shapes : Bool) (returns : Ty) (args : List Ty) (τ : Temps) (s : State)
    {f : String} {ts params : List Ty} {target : Callee} {es : List Expr}
    (h : Calls Γ f ts target params t) (hes : ExprsTyped Γ es ts) (hI : I.callees = Γ.callee?)
    {result : Option Ty} (hresult : result = none ∨ result = some t ∧ t ≠ .void) :
    Flows shapes I (within Γ returns ((Note.passed params es).reverse ++ args) τ)
      [s.instr (.call target es.length)] [⟨Note.passed params es, some t⟩]
      { within Γ returns args τ with returned := result } := by
  have hle : ∀ S : Assertion, (S.returned = some t ∨ t = .void) → S.locals = Γ.locals →
      S.temps = τ → S.args = args → S.returns = returns →
      S.Entails shapes { within Γ returns args τ with returned := result } := by
    rintro ⟨_, _, _, _, _⟩ hret rfl rfl rfl rfl
    refine ⟨fun _ _ h => h, fun _ d h => ⟨d, h, fun _ hv => hv⟩, rfl, fun u hu => ?_, rfl⟩
    dsimp only at hu
    rcases hresult with rfl | ⟨rfl, hv⟩
    · cases hu
    · cases hu
      exact hret.resolve_right hv
  cases h with
  | user hf hlen ha =>
    rw [passed_of_length_eq (hlen.trans (length_of_exprsTyped hes))]
    rw [← length_of_exprsTyped hes, ← hlen]
    refine (Flows.one (.user (by rw [hI, hf]) rfl)).entails (hle _ ?_ rfl rfl rfl rfl)
    by_cases hv : t = .void
    · exact .inr hv
    · exact .inl (if_neg hv)
  | builtin ha =>
    rw [passed_nil hes, ← length_of_exprsTyped hes]
    exact (Flows.one (.builtin ha rfl)).entails (hle _ (.inl rfl) rfl rfl rfl rfl)

/-! ### Expressions -/

/-- Code that evaluates something behind other code. -/
theorem Evaluates.after {lo mid hi : Nat} {code' : List Instr} {notes notes' : List Note}
    (hτ : Below lo τ τ')
    (hf : Flows shapes I (within Γ returns args τ) code notes (within Γ returns args τ'))
    (hle : lo ≤ mid) (h : Evaluates shapes I Γ returns args mid hi τ' code' notes' a t) :
    Evaluates shapes I Γ returns args lo hi τ (code ++ code') (notes ++ notes') a t := by
  obtain ⟨τ₁, hτ₁, hf₁, ho₁, hb₁⟩ := h
  exact ⟨τ₁, hτ.trans (hτ₁.mono hle), hf.append hf₁, ho₁, hb₁⟩

/-- An expression whose value is widened. -/
theorem Evaluates.widens {e : Expr} {expected : Ty} {s₁ s₂ : State} {notes : List Note}
    {widening : List Instr}
    (he : Evaluates shapes I Γ returns args s.temps s₁.temps τ code notes a e.ty)
    (hle : s.temps ≤ s₁.temps) (hint : e.isInt = true ↔ ∃ n, a = .const (.int n))
    (hw : Widens s₁ e.ty expected a widening a' s₂) :
    Evaluates shapes I Γ returns args s.temps s₂.temps τ (code ++ widening)
      (notes ++ Note.widen e expected) a' (Note.widenedTy e.ty expected) := by
  obtain ⟨τ₁, hτ₁, hf₁, ho₁, hb₁⟩ := he
  obtain ⟨τ₂, hτ₂, hf₂, ho₂, hb₂⟩ := evaluates_widens hw hint ho₁ hb₁
  exact ⟨τ₂, hτ₁.trans (hτ₂.mono hle), hf₁.append hf₂, ho₂, hb₂⟩

theorem isNumeric_widenedTy {found : Ty} (h : (found.isNumeric || found.isUnknown) = true) :
    ((Note.widenedTy found .float).isNumeric ||
      (Note.widenedTy found .float).isUnknown) = true := by
  unfold Note.widenedTy
  split
  · rfl
  · exact h

/-- A value is stored as an element of a literal, and the literal is known to go on so far. -/
theorem filled_of_filling {element : Ty} {len : Nat} {v : Value}
    (h : (Content.filling element len len).Has shapes v) : (Ty.array element).Has shapes v := by
  obtain ⟨items, rfl, hlen, -, hitems⟩ := h
  refine ⟨items, rfl, fun w hw => ?_⟩
  obtain ⟨i, hi⟩ := List.mem_iff_getElem?.1 hw
  have hlt := (List.getElem?_eq_some_iff.1 hi).1
  exact hitems i (by omega) w hi

/-- A temporary may be known to hold less. -/
theorem entails_set {u : Nat} {d : Content} (d' : Content) (hu : τ u = some d)
    (h : ∀ v, d.Has shapes v → d'.Has shapes v) :
    (within Γ returns args τ).Entails shapes (within Γ returns args (τ.set u d')) := by
  refine ⟨fun _ _ h => h, fun u' e he => ?_, rfl, fun _ h => h, rfl⟩
  change (if u' = u then some d' else τ u') = some e at he
  by_cases hu' : u' = u
  · rw [if_pos hu'] at he
    cases he
    exact ⟨d, by rw [hu']; exact hu, h⟩
  · rw [if_neg hu'] at he
    exact ⟨e, he, fun _ hv => hv⟩

end

section

variable (shapes : Bool) {c : Context} {I : Interface} {Γ : Env} {k : Nat} (returns : Ty)

mutual

/-- The code of an expression evaluates it. -/
theorem evaluates_expr (h : Scoped c I Γ k) (e : Expr) : ∀ {s s' : State} {code : List Instr}
    {a : Operand} {t : Ty} (args : List Ty) (τ : Temps), ExprCode c s e code a s' →
    ExprTyped Γ e t →
    Evaluates shapes I Γ returns args s.temps s'.temps τ code (e.notes c.signatures) a t := by
  intro s s' code a t args τ hcode htyped
  cases htyped with
  | int | float | str | bool =>
    cases hcode
    exact .nil .const (fun u hu => by cases hu)
  | @name m x b hm hx =>
    cases hcode with
    | @name _ _ _ b' hb =>
      obtain rfl : b = b' := Option.some.inj (hx.binding.symm.trans hb)
      exact .nil (h.bound returns args hx) (fun u hu => by cases hu)
  | binary hm hl hr ht =>
    cases hcode with
    | @binary _ s₁ s₂ s₃ _ _ _ _ _ _ _ _ _ _ hcl hk hcr =>
      rw [Expr.notes, ty_of_exprTyped hl, ty_of_exprTyped hr, hm]
      have hle₁ := hcl.supplied.temps
      have hle₂ := hk.supplied.temps
      have hle₃ := hcr.supplied.temps
      obtain ⟨τ₁, hτ₁, hf₁, ho₁, hb₁⟩ := evaluates_expr h _ args τ hcl hl
      obtain ⟨τ₂, hτ₂, hf₂, ho₂, hb₂⟩ :=
        evaluates_pins hk (forms_of_exprCode hcl).1 (ty_of_exprTyped hl) ho₁ hb₁
      obtain ⟨τ₃, hτ₃, hf₃, ho₃, hb₃⟩ := evaluates_expr h _ args τ₂ hcr hr
      have hτ := (hτ₁.trans (hτ₂.mono hle₁)).trans (hτ₃.mono (Nat.le_trans hle₁ hle₂))
      refine .after hτ ((hf₁.append hf₂).append hf₃) (by omega) (.fresh ?_)
      exact .binary (ho₂.carry hb₂ hτ₃) ho₃ ht .temp
  | unary hm he ht =>
    cases hcode with
    | @unary _ s₁ _ _ _ _ _ hce =>
      rw [Expr.notes, ty_of_exprTyped he, hm]
      obtain ⟨τ₁, hτ₁, hf₁, ho₁, hb₁⟩ := evaluates_expr h _ args τ hce he
      refine .after hτ₁ hf₁ hce.supplied.temps (.fresh ?_)
      exact .unary ho₁ ht .temp
  | @call _ f _ _ _ hm ha ht =>
    cases hcode with
    | @call _ s₁ _ _ _ target params returns' passing hf hargs hv =>
      obtain ⟨rfl, hcalls⟩ := calls_of_callTy? h.agrees hf ht
      have hnotes : Lowering.callee? ⟨c.signatures, .unknown, none⟩ f =
          some (target, params, t) := hf
      rw [Expr.notes, hnotes]
      obtain ⟨τ₁, hτ₁, hf₁⟩ :=
        flows_arguments h _ args τ hargs ha hcalls.passes
      have hf₂ := hcalls.flows shapes returns args τ₁ s₁ ha h.callees (.inr ⟨rfl, hv⟩)
      have hτ₃ := Below.set (τ := τ₁) (Nat.le_refl s₁.temps) (.value t)
      have hf₃ : Flows shapes I { within Γ returns args τ₁ with returned := some t }
          [s₁.instr (.copy s₁.temp .returned)] [⟨[t], some t⟩]
          (within Γ returns args (τ₁.set s₁.temps (.value t))) := by
        refine (Flows.one (.copy (.returned rfl) (.inr (Ty.fits_self t)) .temp)).entails ?_
        exact ⟨fun _ _ h => h, fun _ d h => ⟨d, h, fun _ hv => hv⟩, rfl, (fun _ h => by cases h),
          rfl⟩
      refine ⟨_, hτ₁.trans (hτ₃.mono hargs.supplied.temps), (hf₁.append hf₂).append hf₃,
        .temp (τ₁.set_self _ _), fun u hu => ?_⟩
      cases hu
      exact Nat.lt_succ_self _
  | @array m items element hm hi =>
    cases hcode with
    | @array _ s₁ _ _ fill hci =>
      have hitem : itemTy m = element := by
        rw [itemTy, hm]
        rfl
      rw [hitem] at hci
      rw [Expr.notes, hitem]
      have hnew : Flows shapes I (within Γ returns args τ)
          [s.instr (.newArray s.temp items.length)] [Note.plain]
          (within Γ returns args (τ.set s.temps (.filling element items.length 0))) :=
        .one .newArray
      obtain ⟨τ₁, hτ₁, hf₁, hu₁⟩ := fills_elements h items args _ hci hi
        (Nat.lt_succ_self s.temps) (τ.set_self s.temps (.filling element items.length 0))
      rw [Nat.zero_add] at hu₁
      have hf := (hnew.append hf₁).entails
        (entails_set (.value (.array element)) hu₁ fun _ => filled_of_filling)
      have hτ := ((Below.set (Nat.le_refl s.temps) _).trans hτ₁).trans
        (.set (Nat.le_refl s.temps) (.value (.array element)))
      refine ⟨_, hτ, hf, .temp (τ₁.set_self _ _), fun u hu => ?_⟩
      cases hu
      exact hci.supplied.temps
  | @matrix m rows shape hm hs hr =>
    cases hcode with
    | @matrix _ s₁ _ _ fill hci =>
      rw [Expr.notes, hm, hs]
      rw [hs] at hr
      have hnew : Flows shapes I (within Γ returns args τ)
          [s.instr (.newMatrix s.temp rows.length (rows.headD []).length)]
          [⟨[], some (.matrix (some (rows.length, (rows.headD []).length)))⟩]
          (within Γ returns args (τ.set s.temps
            (.value (.matrix (some (rows.length, (rows.headD []).length)))))) :=
        .one .newMatrix
      obtain ⟨τ₁, hτ₁, hf₁⟩ := flows_rows h rows args _ hci hr (Nat.lt_succ_self s.temps)
        (τ.set_self s.temps _)
      have hτ := (Below.set (τ := τ) (Nat.le_refl s.temps) _).trans
        (hτ₁.mono (Nat.le_succ s.temps))
      refine ⟨τ₁, hτ, hnew.append hf₁, .temp ?_, fun u hu => ?_⟩
      · exact (hτ₁ s.temps (Nat.lt_succ_self s.temps)).trans (τ.set_self _ _)
      · cases hu
        exact hci.supplied.temps
  | element hm hb hr hi ht =>
    cases hcode with
    | @element _ s₁ s₂ s₃ _ _ _ _ _ _ _ _ _ hcb hk hcr =>
      rw [Expr.notes, ty_of_exprTyped hb, ty_of_exprTyped hr, hm]
      have hle₁ := hcb.supplied.temps
      have hle₂ := hk.supplied.temps
      have hle₃ := hcr.supplied.temps
      obtain ⟨τ₁, hτ₁, hf₁, ho₁, hb₁⟩ := evaluates_expr h _ args τ hcb hb
      obtain ⟨τ₂, hτ₂, hf₂, ho₂, hb₂⟩ :=
        evaluates_pins hk (forms_of_exprCode hcb).1 (ty_of_exprTyped hb) ho₁ hb₁
      obtain ⟨τ₃, hτ₃, hf₃, ho₃, hb₃⟩ := evaluates_expr h _ args τ₂ hcr hr
      have hτ := (hτ₁.trans (hτ₂.mono hle₁)).trans (hτ₃.mono (Nat.le_trans hle₁ hle₂))
      refine .after hτ ((hf₁.append hf₂).append hf₃) (by omega) (.fresh ?_)
      exact .load (ho₂.carry hb₂ hτ₃) (.element ho₃ hi) ht .temp
  | entry hm hb hr hi hc hj ht =>
    cases hcode with
    | @entry _ s₁ s₂ s₃ s₄ s₅ _ _ _ _ _ _ _ _ _ _ _ _ _ _ hcb hk hcr hkr hcc =>
      rw [Expr.notes, ty_of_exprTyped hb, ty_of_exprTyped hr, ty_of_exprTyped hc, hm]
      have hle₁ := hcb.supplied.temps
      have hle₂ := hk.supplied.temps
      have hle₃ := hcr.supplied.temps
      have hle₄ := hkr.supplied.temps
      have hle₅ := hcc.supplied.temps
      obtain ⟨τ₁, hτ₁, hf₁, ho₁, hb₁⟩ := evaluates_expr h _ args τ hcb hb
      obtain ⟨τ₂, hτ₂, hf₂, ho₂, hb₂⟩ :=
        evaluates_pins hk (forms_of_exprCode hcb).1 (ty_of_exprTyped hb) ho₁ hb₁
      obtain ⟨τ₃, hτ₃, hf₃, ho₃, hb₃⟩ := evaluates_expr h _ args τ₂ hcr hr
      obtain ⟨τ₄, hτ₄, hf₄, ho₄, hb₄⟩ :=
        evaluates_pins hkr (forms_of_exprCode hcr).1 (ty_of_exprTyped hr) ho₃ hb₃
      obtain ⟨τ₅, hτ₅, hf₅, ho₅, hb₅⟩ := evaluates_expr h _ args τ₄ hcc hc
      have hlater := (hτ₃.trans (hτ₄.mono hle₃)).trans (hτ₅.mono (Nat.le_trans hle₃ hle₄))
      have hτ := (hτ₁.trans (hτ₂.mono hle₁)).trans (hlater.mono (Nat.le_trans hle₁ hle₂))
      refine .after hτ ((((hf₁.append hf₂).append hf₃).append hf₄).append hf₅) (by omega)
        (.fresh ?_)
      exact .load (ho₂.carry hb₂ hlater) (.entry (ho₄.carry hb₄ hτ₅) hi ho₅ hj) ht .temp
termination_by structural e

/-- The code that passes arguments adds them to those that were passed before. -/
theorem flows_arguments (h : Scoped c I Γ k) (es : List Expr) : ∀ {s s' : State}
    {code : List Instr} {params ts : List Ty} (args : List Ty) (τ : Temps),
    ArgumentsCode c s params es code s' → ExprsTyped Γ es ts → Passes params ts →
    ∃ τ', Below s.temps τ τ' ∧ Flows shapes I (within Γ returns args τ) code
      (Expr.argumentNotes c.signatures params es)
      (within Γ returns ((Note.passed params es).reverse ++ args) τ') := by
  intro s s' code params ts args τ hcode htyped hpasses
  cases htyped with
  | nil =>
    cases hcode
    exact ⟨τ, .refl _ τ, .nil (.refl _)⟩
  | @cons e es t ts he hes =>
    cases hcode with
    | @cons _ s₁ _ _ _ _ _ rest a hwidened hrest =>
      cases hwidened with
      | @mk _ s₀ _ _ _ _ _ _ _ hce hw =>
        have hmoves : Moves shapes (Note.widenedTy t (params.headD .unknown))
            ((params.head?).getD t) ∧ Passes params.tail ts := by
          rcases hpasses with rfl | ⟨hlen, hall⟩
          · rw [widenedTy_of_ne (by rintro ⟨-, h⟩; cases h)]
            exact ⟨.inr (Ty.fits_self t), .inl rfl⟩
          · cases params with
            | nil => cases hlen
            | cons p params =>
              obtain ⟨hp, hrest⟩ := (Bool.and_eq_true_iff ..).1 hall
              exact ⟨moves_of_accepts hp, .inr ⟨Nat.succ.inj hlen, hrest⟩⟩
        have hcode := evaluates_expr h e args τ hce he
        rw [← ty_of_exprTyped he] at hcode hmoves
        obtain ⟨τ₁, hτ₁, hf₁, ho₁, hb₁⟩ :=
          hcode.widens hce.supplied.temps (forms_of_exprCode hce).2.1 hw
        have hf₂ := Flows.one (i := s₁.instr (.param a)) (.param ho₁ hmoves.1)
        obtain ⟨τ₃, hτ₃, hf₃⟩ := flows_arguments h es ((params.head?).getD e.ty :: args) τ₁
          hrest hes hmoves.2
        refine ⟨τ₃, hτ₁.trans (hτ₃.mono (Nat.le_trans hce.supplied.temps hw.supplied.temps)), ?_⟩
        have hhead : (params.head?).getD .unknown = params.headD .unknown := by
          cases params <;> rfl
        have hargs : (Note.passed params (e :: es)).reverse ++ args =
            (Note.passed params.tail es).reverse ++ ((params.head?).getD e.ty :: args) := by
          rw [Note.passed, List.reverse_cons, List.append_assoc]
          rfl
        rw [Expr.argumentNotes, Note.param, hhead, hargs]
        exact (hf₁.append hf₂).append hf₃
termination_by structural es

/-- The code that fills an array. -/
theorem fills_elements (h : Scoped c I Γ k) (es : List Expr) : ∀ {s s' : State}
    {code : List Instr} {u len i : Nat} {before element : Ty} (args : List Ty) (τ : Temps),
    ElementsCode c (.temp u) element s i es code s' → ElementsTyped Γ before es element →
    u < s.temps → τ u = some (.filling element len i) →
    ∃ τ', Below u τ τ' ∧ Flows shapes I (within Γ returns args τ) code
      (Expr.elementNotes c.signatures element es) (within Γ returns args τ') ∧
      τ' u = some (.filling element len (i + es.length)) := by
  intro s s' code u len i before element args τ hcode htyped hu hτu
  cases htyped with
  | nil =>
    cases hcode
    exact ⟨τ, .refl _ τ, .nil (.refl _), hτu⟩
  | @cons e es _ found joined _ he hj hes =>
    cases hcode with
    | @cons _ _ _ s₁ _ _ _ _ _ rest a hwidened hrest =>
      cases hwidened with
      | @mk _ s₀ _ _ _ _ _ _ _ hce hw =>
        have hjoins := (joins_of_joinElement? hj).2.trans (joins_of_elementsTyped hes)
        have hcode := evaluates_expr h e args τ hce he
        rw [← ty_of_exprTyped he] at hcode hjoins
        have hle := Nat.le_trans hce.supplied.temps hw.supplied.temps
        obtain ⟨τ₁, hτ₁, hf₁, ho₁, hb₁⟩ :=
          hcode.widens hce.supplied.temps (forms_of_exprCode hce).2.1 hw
        have hu₁ := (hτ₁ u hu).trans hτu
        have hf₂ : Flows shapes I (within Γ returns args τ₁)
            [s₁.instr (.store (.temp u) (indexConst i) none a)]
            [⟨[.int, Note.widenedTy e.ty element], some element⟩]
            (within Γ returns args (τ₁.set u (.filling element len (i + 1)))) :=
          .one (.fill hu₁ ho₁ hjoins.moves)
        obtain ⟨τ₃, hτ₃, hf₃, hu₃⟩ := fills_elements h es args
          (τ₁.set u (.filling element len (i + 1))) hrest hes (Nat.lt_of_lt_of_le hu hle)
          (τ₁.set_self _ _)
        refine ⟨τ₃, ?_, (hf₁.append hf₂).append hf₃, ?_⟩
        · exact ((hτ₁.mono (Nat.le_of_lt hu)).trans (.set (Nat.le_refl u) _)).trans hτ₃
        · rw [hu₃, List.length_cons, Nat.add_assoc, Nat.add_comm 1]
termination_by structural es

/-- The code that fills a row of a matrix. -/
theorem flows_entries (h : Scoped c I Γ k) (es : List Expr) : ∀ {s s' : State}
    {code : List Instr} {u row i : Nat} {shape : Option (Nat × Nat)} (args : List Ty) (τ : Temps),
    EntriesCode c (.temp u) row s i es code s' → EntriesTyped Γ es → u < s.temps →
    τ u = some (.value (.matrix shape)) →
    ∃ τ', Below s.temps τ τ' ∧ Flows shapes I (within Γ returns args τ) code
      (Expr.entryNotes c.signatures es) (within Γ returns args τ') := by
  intro s s' code u row i shape args τ hcode htyped hu hτu
  cases htyped with
  | nil =>
    cases hcode
    exact ⟨τ, .refl _ τ, .nil (.refl _)⟩
  | @cons e es t he ht hes =>
    cases hcode with
    | @cons _ _ _ s₁ _ _ _ _ _ rest a hwidened hrest =>
      cases hwidened with
      | @mk _ s₀ _ _ _ _ _ _ _ hce hw =>
        have hcode := evaluates_expr h e args τ hce he
        rw [← ty_of_exprTyped he] at hcode ht
        have hle := Nat.le_trans hce.supplied.temps hw.supplied.temps
        obtain ⟨τ₁, hτ₁, hf₁, ho₁, hb₁⟩ :=
          hcode.widens hce.supplied.temps (forms_of_exprCode hce).2.1 hw
        have hu₁ := (hτ₁ u hu).trans hτu
        have hf₂ : Flows shapes I (within Γ returns args τ₁)
            [s₁.instr (.store (.temp u) (indexConst row) (some (indexConst i)) a)]
            [⟨[.int, .int, Note.widenedTy e.ty .float], none⟩] (within Γ returns args τ₁) :=
          .one (.entry hu₁ ho₁ (isNumeric_widenedTy ht))
        obtain ⟨τ₃, hτ₃, hf₃⟩ := flows_entries h es args τ₁ hrest hes
          (Nat.lt_of_lt_of_le hu hle) hu₁
        exact ⟨τ₃, hτ₁.trans (hτ₃.mono hle), (hf₁.append hf₂).append hf₃⟩
termination_by structural es

/-- The code that fills a matrix. -/
theorem flows_rows (h : Scoped c I Γ k) (rows : List (List Expr)) : ∀ {s s' : State}
    {code : List Instr} {u i cols : Nat} {shape : Option (Nat × Nat)} (args : List Ty) (τ : Temps),
    RowsCode c (.temp u) s i rows code s' → RowsTyped Γ cols rows → u < s.temps →
    τ u = some (.value (.matrix shape)) →
    ∃ τ', Below s.temps τ τ' ∧ Flows shapes I (within Γ returns args τ) code
      (Expr.rowNotes c.signatures rows) (within Γ returns args τ') := by
  intro s s' code u i cols shape args τ hcode htyped hu hτu
  cases htyped with
  | nil =>
    cases hcode
    exact ⟨τ, .refl _ τ, .nil (.refl _)⟩
  | cons hlen hes hrows =>
    cases hcode with
    | cons hce hcr =>
      have hle := hce.supplied.temps
      obtain ⟨τ₁, hτ₁, hf₁⟩ := flows_entries h _ args τ hce hes hu hτu
      obtain ⟨τ₂, hτ₂, hf₂⟩ := flows_rows h _ args τ₁ hcr hrows
        (Nat.lt_of_lt_of_le hu hle) ((hτ₁ u hu).trans hτu)
      exact ⟨τ₂, hτ₁.trans (hτ₂.mono hle), hf₁.append hf₂⟩
termination_by structural rows

end

end

end Typing

end NumericScript
