import NumericScript.Proofs.Typing.Expression

/-! # Types along the code of statements

The code of an annotated statement takes what is known before it to what is known after it.  What
is known at its labels depends on the statement; it is found together with that.

* `LabelsAre`: what is known at the labels of a piece of code.
* `typed_cond`, `typed_branch`, `typed_while`, `typed_repeat`, `typed_for`: branches and loops.
* `flows_stmt`, `flows_block`: the code of statements. -/

namespace NumericScript

open Lowering
open Analysis hiding State

namespace Typing

/-! ### Labels -/

/-- What is known at the labels of which the numbers are in a range. -/
def LabelsAre (labels : Label → Option Assertion) (lo hi : Nat) (L : Nat → Option Assertion) :
    Prop :=
  ∀ n, lo ≤ n → n < hi → labels (.local n) = L n

/-- What is known at the labels below a bound, and at the others. -/
def splitAt (mid : Nat) (L L' : Nat → Option Assertion) (n : Nat) : Option Assertion :=
  if n < mid then L n else L' n

theorem LabelsAre.left {labels : Label → Option Assertion} {lo mid hi : Nat}
    {L L' : Nat → Option Assertion} (h : LabelsAre labels lo hi (splitAt mid L L'))
    (hhi : mid ≤ hi) : LabelsAre labels lo mid L := by
  intro n hlo hn
  rw [h n hlo (by omega), splitAt, if_pos hn]

theorem LabelsAre.right {labels : Label → Option Assertion} {lo mid hi : Nat}
    {L L' : Nat → Option Assertion} (h : LabelsAre labels lo hi (splitAt mid L L'))
    (hlo : lo ≤ mid) : LabelsAre labels mid hi L' := by
  intro n hn hhi
  rw [h n (by omega) hhi, splitAt, if_neg (by omega)]

theorem LabelsAre.sub {labels : Label → Option Assertion} {lo lo' hi hi' : Nat}
    {L : Nat → Option Assertion} (h : LabelsAre labels lo hi L) (hlo : lo ≤ lo') (hhi : hi' ≤ hi) :
    LabelsAre labels lo' hi' L :=
  fun n hn hn' => h n (Nat.le_trans hlo hn) (Nat.lt_of_lt_of_le hn' hhi)

theorem LabelsAre.first {labels : Label → Option Assertion} {lo mid hi : Nat} {T : Assertion}
    {L : Nat → Option Assertion} (h : LabelsAre labels lo hi (splitAt mid (fun _ => some T) L))
    {n : Nat} (hlo : lo ≤ n) (hn : n < mid) (hhi : n < hi) : labels (.local n) = some T := by
  rw [h n hlo hhi, splitAt, if_pos hn]

/-- The interface with other labels. -/
def Interface.withLabels (I : Interface) (labels : Label → Option Assertion) : Interface :=
  { I with labels := labels }

theorem Scoped.withLabels {c : Context} {I : Interface} {Γ : Env} {k : Nat}
    (h : Scoped c I Γ k) (labels : Label → Option Assertion) :
    Scoped c (I.withLabels labels) Γ k :=
  ⟨h.agrees, h.proper, h.slotted, h.roots, h.callees⟩

section

variable {shapes : Bool} {c : Context} {I : Interface} {Γ Γ' Γ₁ : Env} {k k' : Nat} {returns t : Ty}
  {τ τ' : Temps} {a : Operand} {s s' : State} {code : List Instr} {σ : Scene}

/-! ### Scopes -/

theorem Scoped.inLoop (h : Scoped c I Γ k) (again after : Label) :
    Scoped (c.inLoop again after) I Γ k :=
  ⟨h.agrees, h.proper, h.slotted, h.roots, h.callees⟩

theorem Scoped.enter (h : Scoped c I Γ k) : Scoped c I Γ.enter k :=
  ⟨h.agrees, h.proper.enter, h.slotted.enter, h.roots.enter, h.callees⟩

theorem Scoped.mono (h : Scoped c I Γ k) (hk : k ≤ k') : Scoped c I Γ k' :=
  ⟨h.agrees, h.proper, h.slotted.mono hk, h.roots, h.callees⟩

/-- A statement leaves a scope in which the same holds. -/
theorem Scoped.stmt {st : Stmt} (h : Scoped c I Γ k) (hs : StmtTyped σ Γ k st Γ' k')
    (hr : Γ'.Roots I.globals) : Scoped c I Γ' k' where
  agrees := fun f => by rw [hs.callee?_eq]; exact h.agrees f
  proper := hs.proper h.proper
  slotted := hs.slotted h.slotted (hs.shadows_le _)
  roots := hr
  callees := by rw [hs.callee?_eq]; exact h.callees

/-! ### What stays known -/

/-- The temporaries of which something is known are below a bound. -/
def Supported (n : Nat) (τ : Temps) : Prop := ∀ u d, τ u = some d → u < n

theorem Supported.mono {n n' : Nat} (h : Supported n τ) (hn : n ≤ n') : Supported n' τ :=
  fun u d hd => Nat.lt_of_lt_of_le (h u d hd) hn

theorem Supported.set {n u : Nat} (h : Supported n τ) (hu : u < n) (d : Content) :
    Supported n (τ.set u d) := by
  intro u' d' hd
  unfold Temps.set at hd
  split at hd
  · omega
  · exact h u' d' hd

theorem entails_within (shapes : Bool) (returns : Ty) (args : List Ty)
    (hlocals : ∀ slot t, Γ.locals slot = some t → Γ'.locals slot = some t)
    (htemps : ∀ u d, τ u = some d → τ' u = some d) :
    (within Γ' returns args τ').Entails shapes (within Γ returns args τ) :=
  ⟨hlocals, fun u d hd => ⟨d, htemps u d hd, fun _ hv => hv⟩, rfl, fun _ h => h, rfl⟩

/-- Temporaries that are not in use are forgotten. -/
theorem entails_of_below (shapes : Bool) (Γ : Env) (returns : Ty) (args : List Ty) {n : Nat}
    (hτ : Supported n τ) (h : Below n τ τ') :
    (within Γ returns args τ').Entails shapes (within Γ returns args τ) :=
  entails_within shapes returns args (fun _ _ h => h) fun u d hd => (h u (hτ u d hd)).trans hd

/-- What is known at the labels of the loop at hand. -/
def Jumps (shapes : Bool) (c : Context) (labels : Label → Option Assertion) (S : Assertion) :
    Prop :=
  ∀ loop, c.loop = some loop → ∀ l, l = loop.again ∨ l = loop.after →
    ∃ T, labels l = some T ∧ S.Entails shapes T

theorem Jumps.of_entails {labels : Label → Option Assertion} {S S' : Assertion}
    (h : Jumps shapes c labels S) (hS : S'.Entails shapes S) : Jumps shapes c labels S' := by
  intro loop hloop l hl
  obtain ⟨T, hT, hST⟩ := h loop hloop l hl
  exact ⟨T, hT, hS.trans hST⟩

theorem jumps_inLoop {labels : Label → Option Assertion} {again after : Label} {S T : Assertion}
    (hagain : labels again = some T) (hafter : labels after = some T) (hS : S.Entails shapes T) :
    Jumps shapes (c.inLoop again after) labels S := by
  intro loop hloop l hl
  cases hloop
  rcases hl with rfl | rfl
  · exact ⟨T, hagain, hS⟩
  · exact ⟨T, hafter, hS⟩

/-! ### Simple statements -/

theorem ty_of_bound {x : Name} {b : Binding} (hx : x.binding = some b) : x.ty = b.ty := by
  rw [Name.ty, hx]
  rfl

/-- A widened operand is a constant if and only if the expression is a literal. -/
theorem const_of_widens {e : Expr} {expected : Ty} {widening : List Instr} {a' : Operand}
    {args : List Ty} (hw : Widens s e.ty expected a widening a' s')
    (hliteral : e.isLiteral = true ↔ ∃ n, a = .const n)
    (ha : OperandHas I (within Γ returns args τ) a e.ty) :
    e.isLiteral = true ↔ ∃ n, a' = .const n := by
  generalize e.ty = found at hw ha
  cases hw with
  | same => exact hliteral
  | const =>
    rw [hliteral]
    exact ⟨fun _ => ⟨_, rfl⟩, fun _ => ⟨_, rfl⟩⟩
  | widen hne =>
    rw [hliteral]
    constructor
    · rintro ⟨n, rfl⟩
      generalize hint : Ty.int = found at ha
      cases ha with
      | const =>
        cases n with
        | int n => exact absurd rfl (hne n)
        | _ => cases hint
    · rintro ⟨n, hn⟩
      cases hn

theorem isOpen_constant (n : Constant) : n.ty.isOpen shapes = false := by
  cases n <;> rfl

/-- The operation that puts an operand into a place. -/
theorem flows_put {e : Expr} {S S' : Assertion} {d : Place}
    (ho : OperandHas I S a (Note.widenedTy e.ty t)) (hm : Moves shapes (Note.widenedTy e.ty t) t)
    (hliteral : e.isLiteral = true ↔ ∃ n, a = .const n) (hw : Writes I S d (.value t) S') :
    Flows shapes I S [s.instr (put d a)] [Note.put e t] S' := by
  by_cases hl : e.isLiteral = true
  · obtain ⟨n, rfl⟩ := hliteral.1 hl
    rw [Note.put, if_pos hl]
    refine .one (.assign ?_ hw)
    generalize Note.widenedTy e.ty t = found at ho hm
    cases ho with
    | const =>
      rw [Moves, isOpen_constant] at hm
      exact hm.resolve_left Bool.false_ne_true
  · rw [Note.put, if_neg hl]
    have hput : put d a = .copy d a := by
      cases a with
      | const n => exact absurd (hliteral.2 ⟨n, rfl⟩) hl
      | place p => rfl
      | returned => rfl
    rw [hput]
    exact .one (.copy ho hm hw)

/-- An expression of a scope whose value is widened. -/
theorem evaluates_widened (shapes : Bool) (returns : Ty) (τ : Temps) {e : Expr}
    {found expected : Ty} (h : Scoped c I Γ k)
    (hcode : WidenedCode c s e expected code a s') (he : ExprTyped Γ e found) :
    Evaluates shapes I Γ returns [] s.temps s'.temps τ code (e.widenedNotes c.signatures expected) a
        (Note.widenedTy e.ty expected) ∧ (e.isLiteral = true ↔ ∃ n, a = .const n) := by
  cases hcode with
  | @mk _ s₁ _ _ _ _ _ a₁ _ hce hw =>
    have hforms := forms_of_exprCode hce
    have heval := evaluates_expr shapes returns h e [] τ
      hce he
    rw [← ty_of_exprTyped he] at heval
    refine ⟨heval.widens hce.supplied.temps hforms.2.1 hw, ?_⟩
    obtain ⟨τ₁, -, -, ho, -⟩ := heval
    exact const_of_widens hw hforms.2.2 ho

/-- The code that gives a variable a new value. -/
theorem flows_variable {x : Name} {b : Binding} {e : Expr} {found : Ty} (h : Scoped c I Γ k)
    (hb : x.binding = some b) (hcode : VariableCode c s x e code s') (he : ExprTyped Γ e found)
    (ha : b.ty.accepts found = true)
    (hw : ∀ τ', Writes I (within Γ returns [] τ') (.var b.variable) (.value b.ty)
      (within Γ' returns [] τ')) (hτ : Supported s.temps τ) :
    Flows shapes I (within Γ returns [] τ) code (x.setNotes c.signatures e)
      (within Γ' returns [] τ) := by
  cases hcode with
  | @mk s₁ _ b' _ _ a hb' hwidened =>
    obtain rfl : b = b' := Option.some.inj (hb.symm.trans hb')
    rw [Name.setNotes, ty_of_bound hb]
    obtain ⟨⟨τ₁, hτ₁, hf₁, ho₁, -⟩, hliteral⟩ :=
      evaluates_widened shapes returns τ h hwidened he
    have hm : Moves shapes (Note.widenedTy e.ty b.ty) b.ty := by
      rw [ty_of_exprTyped he]
      exact moves_of_accepts ha
    exact (hf₁.append (flows_put ho₁ hm hliteral (hw τ₁))).entails
      (entails_of_below shapes _ returns [] hτ hτ₁)

/-- The type of an element of a container to which one is assigned. -/
theorem element?_of_elementTy? {container t : Ty} {entry : Bool}
    (h : elementTy? container entry = some t) : container.element? = some t := by
  unfold elementTy? at h
  split at h <;> cases h <;> rfl

theorem isMatrix_of_elementTy? {container t : Ty} (h : elementTy? container false = some t) :
    container.isMatrix = false := by
  cases container <;> first | rfl | cases h

theorem eq_matrix_of_elementTy? {container t : Ty} (h : elementTy? container true = some t)
    (hu : container ≠ .unknown) : ∃ shape, container = .matrix shape ∧ t = .float := by
  unfold elementTy? at h
  split at h
  · exact absurd rfl hu
  · cases ‹true = false›
  · cases h
    exact ⟨_, rfl, rfl⟩
  · cases h

theorem isNumeric_of_accepts {found : Ty} (h : Ty.float.accepts found = true) :
    (found.isNumeric || found.isUnknown) = true := by
  cases found <;> first | rfl | cases h

/-- The code that gives an element of a container a new value. -/
theorem flows_element {x : Name} {b : Binding} {sub : Subscript} {e : Expr} {found : Ty}
    (h : Scoped c I Γ k) (hx : Bound Γ x b) (hcode : ElementCode c s x sub e code s')
    (hs : SubscriptTyped Γ b.ty sub t) (he : ExprTyped Γ e found) (ha : t.accepts found = true)
    (hτ : Supported s.temps τ) :
    Flows shapes I (within Γ returns [] τ) code (x.storeNotes c.signatures sub e)
      (within Γ returns [] τ) := by
  have hbound : ∀ τ', OperandHas I (within Γ returns [] τ') (.place (.var b.variable)) b.ty :=
    fun τ' => h.bound returns [] hx
  have hty := ty_of_bound hx.binding
  cases hs with
  | element hr hi ht =>
    cases hcode with
    | @element s₁ s₂ s₃ _ b' _ _ first keep code _ i' a hb hcr hk hce =>
      obtain rfl : b = b' := Option.some.inj (hx.binding.symm.trans hb)
      have helement := element?_of_elementTy? ht
      rw [helement] at hce
      rw [Name.storeNotes, Note.store, hty, helement, ty_of_exprTyped hr,
        if_neg (by rw [isMatrix_of_elementTy? ht]; exact Bool.false_ne_true)]
      have hle₁ := hcr.supplied.temps
      have hle₂ := hk.supplied.temps
      obtain ⟨τ₁, hτ₁, hf₁, ho₁, hb₁⟩ :=
        evaluates_expr shapes returns h _ [] τ hcr hr
      obtain ⟨τ₂, hτ₂, hf₂, ho₂, hb₂⟩ :=
        evaluates_pins hk (forms_of_exprCode hcr).1 (ty_of_exprTyped hr) ho₁ hb₁
      obtain ⟨⟨τ₃, hτ₃, hf₃, ho₃, -⟩, -⟩ :=
        evaluates_widened shapes returns τ₂ h hce he
      have hall := (hτ₁.trans (hτ₂.mono hle₁)).trans (hτ₃.mono (Nat.le_trans hle₁ hle₂))
      have hm : Moves shapes (Note.widenedTy e.ty t) t := by
        rw [ty_of_exprTyped he]
        exact moves_of_accepts ha
      have hstore : Flows shapes I (within Γ returns [] τ₃)
          [s'.instr (.store (.var b.variable) i' none a)]
          [⟨b.ty :: [_] ++ [Note.widenedTy e.ty t], some t⟩] (within Γ returns [] τ₃) :=
        .one (.storeElement (hbound τ₃) (.element (ho₂.carry hb₂ hτ₃) hi) ht
          (isMatrix_of_elementTy? ht) ho₃ hm)
      exact (((hf₁.append hf₂).append hf₃).append hstore).entails
        (entails_of_below shapes _ returns [] hτ hall)
  | entry hr hi hc hj ht =>
    cases hcode with
    | @entry s₁ s₂ s₃ s₄ s₅ _ b' _ _ _ first keep second keepCol code _ i' _ j' a hb hcr hk hcc hkc
        hce =>
      obtain rfl : b = b' := Option.some.inj (hx.binding.symm.trans hb)
      have helement := element?_of_elementTy? ht
      rw [helement] at hce
      obtain ⟨shape, hshape, rfl⟩ := eq_matrix_of_elementTy? ht (h.proper.bound hx).2
      rw [Name.storeNotes, Note.store, hty, helement, ty_of_exprTyped hr, ty_of_exprTyped hc,
        hshape, if_pos (show (Ty.matrix shape).isMatrix = true from rfl)]
      have hle₁ := hcr.supplied.temps
      have hle₂ := hk.supplied.temps
      have hle₃ := hcc.supplied.temps
      have hle₄ := hkc.supplied.temps
      obtain ⟨τ₁, hτ₁, hf₁, ho₁, hb₁⟩ :=
        evaluates_expr shapes returns h _ [] τ hcr hr
      obtain ⟨τ₂, hτ₂, hf₂, ho₂, hb₂⟩ :=
        evaluates_pins hk (forms_of_exprCode hcr).1 (ty_of_exprTyped hr) ho₁ hb₁
      obtain ⟨τ₃, hτ₃, hf₃, ho₃, hb₃⟩ :=
        evaluates_expr shapes returns h _ [] τ₂ hcc hc
      obtain ⟨τ₄, hτ₄, hf₄, ho₄, hb₄⟩ :=
        evaluates_pins hkc (forms_of_exprCode hcc).1 (ty_of_exprTyped hc) ho₃ hb₃
      obtain ⟨⟨τ₅, hτ₅, hf₅, ho₅, -⟩, -⟩ :=
        evaluates_widened shapes returns τ₄ h hce he
      have hlater := (hτ₃.trans (hτ₄.mono hle₃)).trans (hτ₅.mono (Nat.le_trans hle₃ hle₄))
      have hall := (hτ₁.trans (hτ₂.mono hle₁)).trans (hlater.mono (Nat.le_trans hle₁ hle₂))
      have hn := isNumeric_widenedTy (isNumeric_of_accepts ha)
      rw [← ty_of_exprTyped he] at hn
      have hmatrix := hbound τ₅
      rw [hshape] at hmatrix
      have hstore : Flows shapes I (within Γ returns [] τ₅)
          [s'.instr (.store (.var b.variable) i' (some j') a)]
          [⟨.matrix shape :: [_, _] ++ [Note.widenedTy e.ty .float], none⟩]
          (within Γ returns [] τ₅) :=
        .one (.storeEntry hmatrix
          (.entry (ho₂.carry hb₂ hlater) hi (ho₄.carry hb₄ hτ₅) hj) ho₅ hn)
      exact ((((hf₁.append hf₂).append (hf₃.append hf₄)).append hf₅).append hstore).entails
        (entails_of_below shapes _ returns [] hτ hall)

/-- The code that prints values. -/
theorem flows_prints {es : List Expr} (h : Scoped c I Γ k) (hcode : PrintsCode c s es code s') :
    PrintedTyped Γ es → Supported s.temps τ →
    Flows shapes I (within Γ returns [] τ) code (Expr.printNotes c.signatures es)
      (within Γ returns [] τ) := by
  induction hcode with
  | nil => exact fun _ _ => .nil (.refl _)
  | @cons s s₁ s₂ e es first rest a hce hcs ih =>
    intro hes hτ
    cases hes with
    | cons he ht hes =>
      obtain ⟨τ₁, hτ₁, hf₁, ho₁, -⟩ :=
        evaluates_expr shapes returns h _ [] τ hce he
      rw [Expr.printNotes, ty_of_exprTyped he]
      have hprint : Flows shapes I (within Γ returns [] τ₁) [s₁.instr (.print a es.isEmpty)]
          [Note.test _] (within Γ returns [] τ₁) := .one (.print ho₁)
      exact ((hf₁.append hprint).entails (entails_of_below shapes _ returns [] hτ hτ₁)).append
        (ih hes (hτ.mono hce.supplied.temps))

/-- What is assigned to a variable goes into it as it was declared, also if its type was found out
from what it is initialized with. -/
theorem accepts_of_declaredTy? {declared found t : Ty} (h : declaredTy? declared found = some t) :
    t.accepts found = true := by
  unfold declaredTy? at h
  split at h <;> cases h
  rename_i hd
  unfold Ty.refine
  split
  · exact Ty.accepts_self _
  · exact hd.2

/-- A declared variable gets its first value. -/
theorem writes_of_declares {x : Name} (hx : Declares Γ k x t Γ' k') (hr : Γ'.Roots I.globals)
    (τ : Temps) : Writes I (within Γ returns [] τ) (.var ⟨Γ.slot k x.text, Γ.storage⟩) (.value t)
      (within Γ' returns [] τ) := by
  cases hg : Γ.isGlobal with
  | true =>
    have hstorage : Γ.storage = .global := by rw [Env.storage, hg, if_pos rfl]
    have hlocals : within Γ' returns [] τ = within Γ returns [] τ := by
      rw [within, within, hx.locals_of_isGlobal hg]
    rw [hstorage, hlocals]
    exact .global (hx.roots_slot hg hr)
  | false =>
    have hstorage : Γ.storage = .local := by rw [Env.storage, hg, if_neg Bool.false_ne_true]
    have hlocals : within Γ' returns [] τ =
        (within Γ returns [] τ).setLocal (Γ.slot k x.text) t := by
      rw [within, hx.locals_of_isLocal hg]
      rfl
    rw [hstorage, hlocals]
    exact .local

/-! ### Statements -/

/-- The code of a statement or of several takes what is known before it to what is known after it,
if what is known at its labels is as it should be. -/
def Typed (shapes : Bool) (I : Interface) (c : Context) (s s' : State) (code : List Instr)
    (notes : List Note) (Γ Γ' : Env) (τ : Temps) : Prop :=
  ∃ L, ∀ labels, LabelsAre labels s.labels s'.labels L →
    Jumps shapes c labels (within Γ c.returns [] τ) →
    Flows shapes (I.withLabels labels) (within Γ c.returns [] τ) code notes
      (within Γ' c.returns [] τ)

variable {notes : List Note}

/-- Code in which there are no labels. -/
theorem Typed.straight (h : ∀ labels, Flows shapes (I.withLabels labels) (within Γ c.returns [] τ)
    code notes (within Γ' c.returns [] τ)) : Typed shapes I c s s' code notes Γ Γ' τ :=
  ⟨fun _ => none, fun labels _ _ => h labels⟩

/-- The code of a test and of the jump that is taken where it fails. -/
theorem flows_test (shapes : Bool) (returns : Ty) {e : Expr} {s₁ : State} {test : List Instr}
    {l : Label} {T : Assertion}
    (h : Scoped c I Γ k) (hcode : ExprCode c s e test a s₁) (he : ConditionTyped Γ e t)
    (hτ : Supported s.temps τ) (hl : I.labels l = some T)
    (hT : (within Γ returns [] τ).Entails shapes T) :
    Flows shapes I (within Γ returns [] τ) (test ++ [s₁.instr (.jumpIfFalse a l)])
      (e.notes c.signatures ++ [Note.test e.ty]) (within Γ returns [] τ) := by
  obtain ⟨τ₁, hτ₁, hf₁, ho₁, -⟩ :=
    evaluates_expr shapes returns h _ [] τ hcode he.typed
  have hback := entails_of_below shapes Γ returns [] hτ hτ₁
  rw [ty_of_exprTyped he.typed]
  have hjump : Flows shapes I (within Γ returns [] τ₁) [s₁.instr (.jumpIfFalse a l)] [Note.test t]
      (within Γ returns [] τ₁) := .one (.jumpIfFalse ho₁ he.bool hl (hback.trans hT))
  exact (hf₁.append hjump).entails hback

theorem flows_label (shapes : Bool) (I : Interface) (s : State) {S T : Assertion} {l : Label}
    (hl : I.labels l = some T)
    (hS : S.Entails shapes T) : Flows shapes I S [s.instr (.label l)] [Note.plain] T :=
  .one (.label hl hS)

theorem flows_jump {S T S' : Assertion} {l : Label} (hl : I.labels l = some T)
    (hS : S.Entails shapes T) : Flows shapes I S [s.instr (.jump l)] [Note.plain] S' :=
  .one (.jump hl hS)

/-- What is known in a scope is known behind statements in an inner one. -/
theorem entails_block {ss : List Stmt} (h : Γ.Slotted k) (hss : BlockTyped σ Γ.enter k ss Γ' k') :
    (within Γ' returns [] τ).Entails shapes (within Γ returns [] τ) :=
  entails_within shapes returns [] (fun _ _ ht => hss.locals_le h.enter ht) fun _ _ h => h

theorem roots_stmt {st : Stmt} (h : Scoped c I Γ k) (hs : StmtTyped σ Γ.enter k st Γ' k') :
    Γ'.Roots I.globals := by
  intro y b hy
  exact h.roots y b (by rw [(hs.root_of_isLocal (Env.isGlobal_enter Γ)).1] at hy; exact hy)

theorem roots_block {ss : List Stmt} (h : Scoped c I Γ k) (hss : BlockTyped σ Γ.enter k ss Γ' k') :
    Γ'.Roots I.globals := by
  have hroot := (hss.root_of_isLocal (Env.isGlobal_enter Γ)).1
  intro y b hy
  exact h.roots y b (by rw [hroot] at hy; exact hy)

/-! ### Counting rounds -/

/-- What is known of temporaries while the rounds of a `repeat` are counted: the number of rounds
is in the first of two temporaries, and the counter in the second. -/
def rounds (u : Nat) (t : Ty) (τ : Temps) : Temps :=
  (τ.set u (.value t)).set (u + 1) (.value .int)

theorem rounds_limit (u : Nat) (t : Ty) (τ : Temps) : rounds u t τ u = some (.value t) := by
  rw [rounds, Temps.set, if_neg (by omega), Temps.set_self]

theorem rounds_counter (u : Nat) (t : Ty) (τ : Temps) :
    rounds u t τ (u + 1) = some (.value .int) := Temps.set_self _ _ _

theorem supported_rounds {u : Nat} (t : Ty) (hτ : Supported u τ) :
    Supported (u + 2) (rounds u t τ) :=
  ((hτ.mono (by omega)).set (by omega) _).set (by omega) _

theorem entails_rounds {n u : Nat} (hτ : Supported n τ) (h : Below n τ τ') :
    (within Γ returns [] (rounds u t τ')).Entails shapes (within Γ returns [] (rounds u t τ)) := by
  refine entails_within shapes returns [] (fun _ _ h => h) fun u' d hd => ?_
  unfold rounds Temps.set at hd ⊢
  split
  · rename_i hu
    rwa [if_pos hu] at hd
  · rename_i hu
    rw [if_neg hu] at hd
    split
    · rename_i hu
      rwa [if_pos hu] at hd
    · rename_i hu
      rw [if_neg hu] at hd
      exact (h u' (hτ u' d hd)).trans hd

theorem entails_of_rounds {u : Nat} (hτ : Supported u τ) :
    (within Γ returns [] (rounds u t τ)).Entails shapes (within Γ returns [] τ) :=
  entails_of_below shapes Γ returns [] hτ
    ((Below.set (Nat.le_refl u) _).trans (Below.set (Nat.le_succ u) _))

/-- The code that evaluates the number of rounds and sets the counter. -/
theorem flows_counting (shapes : Bool) (returns : Ty) {e : Expr} {counting : List Instr}
    (h : Scoped c I Γ k)
    (hcode : ExprCode c s e counting a s') (he : ExprTyped Γ e t) (hτ : Supported s.temps τ) :
    Flows shapes I (within Γ returns [] τ)
      (counting ++ [s'.instr (put s'.temp a)] ++ [s'.instr (put s'.nextTemp.temp (indexConst 0))])
      (e.notes c.signatures ++ [Note.put e e.ty] ++ [⟨[], some .int⟩])
      (within Γ returns [] (rounds s'.temps t τ)) := by
  obtain ⟨τ₁, hτ₁, hf₁, ho₁, -⟩ := evaluates_expr shapes returns h e [] τ hcode he
  have hsame : Note.widenedTy e.ty t = t := by
    rw [ty_of_exprTyped he]
    exact widenedTy_of_ne (by rintro ⟨rfl, h⟩; cases h)
  have hlimit : Flows shapes I (within Γ returns [] τ₁) [s'.instr (put s'.temp a)] [Note.put e e.ty]
      (within Γ returns [] (τ₁.set s'.temps (.value t))) := by
    rw [ty_of_exprTyped he]
    rw [← hsame] at ho₁
    refine flows_put ho₁ ?_ (forms_of_exprCode hcode).2.2 .temp
    rw [hsame]
    exact .inr (Ty.fits_self t)
  have hcounter : Flows shapes I (within Γ returns [] (τ₁.set s'.temps (.value t)))
      [s'.instr (put s'.nextTemp.temp (indexConst 0))] [⟨[], some .int⟩]
      (within Γ returns [] (rounds s'.temps t τ₁)) := .one (.assign rfl .temp)
  exact ((hf₁.append hlimit).append hcounter).entails
    (entails_rounds hτ hτ₁)

/-- The code that asks whether there is another round. -/
theorem flows_more (shapes : Bool) (s : State) {u : Nat} {l : Label} (ht : maybeInt t = true)
    (hτ : Supported u τ) (hl : I.labels l = some (within Γ returns [] (rounds u t τ))) :
    Flows shapes I (within Γ returns [] (rounds u t τ))
      ([s.instr (.binary (.temp (u + 2)) .lt (.place (.temp (u + 1))) (.place (.temp u)))] ++
        [s.instr (.jumpIfFalse (.place (.temp (u + 2))) l)])
      ([⟨[.int, t], some (Ty.more t)⟩] ++ [Note.test (Ty.more t)])
      (within Γ returns [] (rounds u t τ)) := by
  have hmore : binaryTy? .lt .int t = some (Ty.more t) ∧ maybeBool (Ty.more t) = true := by
    rcases (Bool.or_eq_true_iff ..).1 ht with ht | ht
    · rw [of_decide_eq_true ht]
      exact ⟨rfl, rfl⟩
    · rw [of_decide_eq_true ht]
      exact ⟨rfl, rfl⟩
  have hback := entails_of_below shapes Γ returns [] (supported_rounds t hτ)
    (Below.set (Nat.le_refl (u + 2)) (.value (Ty.more t)))
  have htest : Flows shapes I (within Γ returns [] (rounds u t τ))
      [s.instr (.binary (.temp (u + 2)) .lt (.place (.temp (u + 1))) (.place (.temp u)))]
      [⟨[.int, t], some (Ty.more t)⟩]
      (within Γ returns [] ((rounds u t τ).set (u + 2) (.value (Ty.more t)))) :=
    .one (.binary (.temp (rounds_counter u t τ)) (.temp (rounds_limit u t τ)) hmore.1 .temp)
  exact htest.append ((Flows.one (.jumpIfFalse (.temp (Temps.set_self _ _ _)) hmore.2 hl
    hback)).entails hback)

/-- The instruction that counts a round. -/
theorem flows_advance (shapes : Bool) (I : Interface) (Γ : Env) (returns t : Ty) (τ : Temps)
    (s : State) (u : Nat) :
    Flows shapes I (within Γ returns [] (rounds u t τ))
      [s.instr (.binary (.temp (u + 1)) .add (.place (.temp (u + 1))) (indexConst 1))]
      [⟨[.int, .int], some .int⟩] (within Γ returns [] (rounds u t τ)) := by
  have hsame := Assertion.setTemp_of_temps (S := within Γ returns [] (rounds u t τ))
    (rounds_counter u t τ)
  have hop : OpTyped shapes I (within Γ returns [] (rounds u t τ))
      (.binary (.temp (u + 1)) .add (.place (.temp (u + 1))) (indexConst 1))
      ⟨[.int, .int], some .int⟩
      ((within Γ returns [] (rounds u t τ)).setTemp (u + 1) (.value .int)) :=
    .binary (.temp (rounds_counter u t τ)) .const rfl .temp
  rw [hsame] at hop
  exact .one hop

/-! ### Branches and loops

The labels of a branch are supplied before those of its body, and so are those of a loop: what is
known at them is chosen first, and what is known at the labels of the body is taken over. -/

/-- The code of a branch without an alternative. -/
theorem typed_cond {k₁ : Nat} {loc : Loc} {e : Expr} {body : List Stmt} {s₁ : State}
    {test : List Instr}
    (hΓ : Scoped c I Γ k) (hce : ExprCode c (s.inLine loc.line) e test a s₁)
    (he : ConditionTyped Γ e t) (hcb : BlockCode c s₁.nextLabel body code s')
    (hb : BlockTyped σ Γ.enter k body Γ₁ k₁) (hτ : Supported s.temps τ)
    (hbody : Typed shapes I c s₁.nextLabel s' code (Stmt.blockNotes c.signatures c.returns body)
      Γ.enter Γ₁ τ) :
    Typed shapes I c s s'
      (test ++ [s₁.instr (.jumpIfFalse a s₁.label)] ++ code ++ [s'.instr (.label s₁.label)])
      ((Stmt.cond loc e body none).notes c.signatures c.returns) Γ Γ τ := by
  have hfrom : s₁.labels = s.labels := hce.supplied.labels
  have hto : s₁.labels + 1 ≤ s'.labels := (BlockCode.labelled _ hcb).labels
  obtain ⟨L, hL⟩ := hbody
  refine ⟨splitAt (s.labels + 1) (fun _ => some (within Γ c.returns [] τ)) L,
    fun labels hls hj => ?_⟩
  have hafter : labels s₁.label = some (within Γ c.returns [] τ) :=
    hls.first (by omega) (by omega) (by omega)
  have htest := flows_test shapes c.returns (hΓ.withLabels labels) hce he hτ hafter (.refl _)
  have hbody := hL labels ((hls.right (Nat.le_succ _)).sub
    (Nat.le_of_eq (congrArg (· + 1) hfrom.symm)) (Nat.le_refl _)) hj
  exact (htest.append hbody).append
    (flows_label shapes (I.withLabels labels) s' hafter (entails_block hΓ.slotted hb))

/-- The code of a branch with an alternative. -/
theorem typed_branch {Γ₂ : Env} {k₁ k₂ : Nat} {loc : Loc} {e : Expr} {body orElse : List Stmt}
    {s₁ s₂ : State} {test codeElse : List Instr} (hΓ : Scoped c I Γ k)
    (hce : ExprCode c (s.inLine loc.line) e test a s₁) (he : ConditionTyped Γ e t)
    (hcb : BlockCode c s₁.nextLabel.nextLabel body code s₂)
    (hb : BlockTyped σ Γ.enter k body Γ₁ k₁) (hco : BlockCode c s₂ orElse codeElse s')
    (ho : BlockTyped σ Γ.enter k₁ orElse Γ₂ k₂) (hτ : Supported s.temps τ)
    (hbody : Typed shapes I c s₁.nextLabel.nextLabel s₂ code
      (Stmt.blockNotes c.signatures c.returns body) Γ.enter Γ₁ τ)
    (horElse : Typed shapes I c s₂ s' codeElse (Stmt.blockNotes c.signatures c.returns orElse)
      Γ.enter Γ₂ τ) :
    Typed shapes I c s s'
      (test ++ [s₁.instr (.jumpIfFalse a s₁.nextLabel.label)] ++ code ++
        [s₂.instr (.jump s₁.label)] ++ [s₂.instr (.label s₁.nextLabel.label)] ++ codeElse ++
        [s'.instr (.label s₁.label)])
      ((Stmt.cond loc e body (some orElse)).notes c.signatures c.returns) Γ Γ τ := by
  have hfrom : s₁.labels = s.labels := hce.supplied.labels
  have hmid : s₁.labels + 1 + 1 ≤ s₂.labels := (BlockCode.labelled _ hcb).labels
  have hto : s₂.labels ≤ s'.labels := (BlockCode.labelled _ hco).labels
  obtain ⟨L₁, hL₁⟩ := hbody
  obtain ⟨L₂, hL₂⟩ := horElse
  refine ⟨splitAt (s.labels + 2) (fun _ => some (within Γ c.returns [] τ))
    (splitAt s₂.labels L₁ L₂), fun labels hls hj => ?_⟩
  have hafter : labels s₁.label = some (within Γ c.returns [] τ) :=
    hls.first (by omega) (by omega) (by omega)
  have hotherwise : labels s₁.nextLabel.label = some (within Γ c.returns [] τ) :=
    hls.first (n := s₁.labels + 1) (by omega) (by omega) (by omega)
  have hrest := hls.right (Nat.le_add_right s.labels 2)
  have htest := flows_test shapes c.returns (hΓ.withLabels labels) hce he hτ hotherwise
    (.refl _)
  have hbody := hL₁ labels ((hrest.left hto).sub
    (Nat.le_of_eq (congrArg (· + 2) hfrom.symm)) (Nat.le_refl _)) hj
  have hleave : Flows shapes (I.withLabels labels) (within Γ₁ c.returns [] τ)
      [s₂.instr (.jump s₁.label)] [Note.plain] (within Γ c.returns [] τ) :=
    flows_jump hafter (entails_block hΓ.slotted hb)
  have henter := flows_label shapes (I.withLabels labels) s₂ hotherwise
    (.refl (within Γ c.returns [] τ))
  have helse := hL₂ labels (hrest.right (by omega)) hj
  have hdone := flows_label shapes (I.withLabels labels) s' hafter
    (entails_block (hΓ.mono (hb.shadows_le _)).slotted ho)
  exact ((((htest.append hbody).append hleave).append henter).append helse).append hdone

/-- The code of a loop with a condition.  The same is known at both of its labels. -/
theorem typed_while {k₁ : Nat} {loc : Loc} {e : Expr} {body : List Stmt} {s₁ : State}
    {test : List Instr} (hΓ : Scoped c I Γ k)
    (hce : ExprCode c (s.inLine loc.line).nextLabel.nextLabel e test a s₁)
    (he : ConditionTyped Γ e t)
    (hcb : BlockCode (c.inLoop (s.inLine loc.line).label (s.inLine loc.line).nextLabel.label) s₁
      body code s') (hb : BlockTyped σ Γ.enter k body Γ₁ k₁) (hτ : Supported s.temps τ)
    (hbody : Typed shapes I
      (c.inLoop (s.inLine loc.line).label (s.inLine loc.line).nextLabel.label) s₁ s' code
      (Stmt.blockNotes c.signatures c.returns body) Γ.enter Γ₁ τ) :
    Typed shapes I c s s'
      ([(s.inLine loc.line).instr (.label (s.inLine loc.line).label)] ++ test ++
        [s₁.instr (.jumpIfFalse a (s.inLine loc.line).nextLabel.label)] ++ code ++
        [s'.instr (.jump (s.inLine loc.line).label)] ++
        [s'.instr (.label (s.inLine loc.line).nextLabel.label)])
      ((Stmt.while loc e body).notes c.signatures c.returns) Γ Γ τ := by
  have hfrom : s₁.labels = s.labels + 2 := hce.supplied.labels
  have hto : s₁.labels ≤ s'.labels := (BlockCode.labelled _ hcb).labels
  obtain ⟨L, hL⟩ := hbody
  refine ⟨splitAt (s.labels + 2) (fun _ => some (within Γ c.returns [] τ)) L,
    fun labels hls hj => ?_⟩
  have hagain : labels (s.inLine loc.line).label = some (within Γ c.returns [] τ) :=
    hls.first (n := s.labels) (Nat.le_refl _) (by omega) (by omega)
  have hafter : labels (s.inLine loc.line).nextLabel.label = some (within Γ c.returns [] τ) :=
    hls.first (n := s.labels + 1) (by omega) (by omega) (by omega)
  have hstart := flows_label shapes (I.withLabels labels) (s.inLine loc.line) hagain
    (.refl (within Γ c.returns [] τ))
  have htest := flows_test shapes c.returns (hΓ.withLabels labels) hce he hτ hafter (.refl _)
  have hbody := hL labels ((hls.right (Nat.le_add_right s.labels 2)).sub
    (Nat.le_of_eq hfrom.symm) (Nat.le_refl _)) (jumps_inLoop hagain hafter (.refl _))
  have hback : Flows shapes (I.withLabels labels) (within Γ₁ c.returns [] τ)
      [s'.instr (.jump (s.inLine loc.line).label)] [Note.plain] (within Γ c.returns [] τ) :=
    flows_jump hagain (entails_block hΓ.slotted hb)
  have hdone := flows_label shapes (I.withLabels labels) s' hafter
    (.refl (within Γ c.returns [] τ))
  have hloop := (((hstart.append htest).append hbody).append hback).append hdone
  rw [← List.append_assoc, ← List.append_assoc] at hloop
  exact hloop

/-- The code of a loop over a number of rounds.  At its three labels the number of rounds and the
counter are known. -/
theorem typed_repeat {k₁ : Nat} {loc : Loc} {count : Expr} {body : List Stmt}
    {s₁ s₂ : State} {counting : List Instr} {n : Operand} (hΓ : Scoped c I Γ k)
    (hce : ExprCode c (s.inLine loc.line) count counting n s₁) (he : ExprTyped Γ count t)
    (ht : maybeInt t = true)
    (hcb : BlockCode (c.inLoop s₁.nextLabel.label s₁.nextLabel.nextLabel.label)
      s₁.nextTemp.nextTemp.nextLabel.nextLabel.nextLabel.nextTemp body code s₂)
    (hb : BlockTyped σ Γ.enter k body Γ₁ k₁) (hτ : Supported s.temps τ)
    (hbody : Typed shapes I (c.inLoop s₁.nextLabel.label s₁.nextLabel.nextLabel.label)
      s₁.nextTemp.nextTemp.nextLabel.nextLabel.nextLabel.nextTemp s₂ code
      (Stmt.blockNotes c.signatures c.returns body) Γ.enter Γ₁ (rounds s₁.temps t τ)) :
    Typed shapes I c s (s₂.inLine loc.line)
      (counting ++ [s₁.instr (put s₁.temp n)] ++
        [s₁.instr (put s₁.nextTemp.temp (indexConst 0))] ++ [s₁.instr (.label s₁.label)] ++
        [s₁.instr (.binary s₁.nextTemp.nextTemp.temp .lt (.place s₁.nextTemp.temp)
          (.place s₁.temp))] ++
        [s₁.instr (.jumpIfFalse (.place s₁.nextTemp.nextTemp.temp)
          s₁.nextLabel.nextLabel.label)] ++ code ++
        [(s₂.inLine loc.line).instr (.label s₁.nextLabel.label)] ++
        [(s₂.inLine loc.line).instr (.binary s₁.nextTemp.temp .add (.place s₁.nextTemp.temp)
          (indexConst 1))] ++
        [(s₂.inLine loc.line).instr (.jump s₁.label)] ++
        [(s₂.inLine loc.line).instr (.label s₁.nextLabel.nextLabel.label)])
      ((Stmt.repeat loc count body).notes c.signatures c.returns) Γ Γ τ := by
  obtain rfl := ty_of_exprTyped he
  have hfrom : s₁.labels = s.labels := hce.supplied.labels
  have hto : s₁.labels + 3 ≤ s₂.labels := (BlockCode.labelled _ hcb).labels
  have hτ₁ : Supported s₁.temps τ := hτ.mono hce.supplied.temps
  obtain ⟨L, hL⟩ := hbody
  refine ⟨splitAt (s.labels + 3)
    (fun _ => some (within Γ c.returns [] (rounds s₁.temps count.ty τ))) L,
    fun labels hls hj => ?_⟩
  change LabelsAre labels s.labels s₂.labels _ at hls
  have hstart : labels s₁.label = some (within Γ c.returns [] (rounds s₁.temps count.ty τ)) :=
    hls.first (by omega) (by omega) (by omega)
  have hagain : labels s₁.nextLabel.label =
      some (within Γ c.returns [] (rounds s₁.temps count.ty τ)) :=
    hls.first (n := s₁.labels + 1) (by omega) (by omega) (by omega)
  have hafter : labels s₁.nextLabel.nextLabel.label =
      some (within Γ c.returns [] (rounds s₁.temps count.ty τ)) :=
    hls.first (n := s₁.labels + 2) (by omega) (by omega) (by omega)
  have hbody := hL labels ((hls.right (Nat.le_add_right s.labels 3)).sub
    (Nat.le_of_eq (congrArg (· + 3) hfrom.symm)) (Nat.le_refl _))
    (jumps_inLoop hagain hafter (.refl _))
  have hcounting := flows_counting shapes c.returns (hΓ.withLabels labels) hce he hτ
  have henter := flows_label shapes (I.withLabels labels) s₁ hstart
    (.refl (within Γ c.returns [] (rounds s₁.temps count.ty τ)))
  have hmore := flows_more shapes s₁ (I := I.withLabels labels) ht hτ₁ hafter
  have hnext := flows_label shapes (I.withLabels labels) (s₂.inLine loc.line) hagain
    (entails_block hΓ.slotted hb)
  have hadvance := flows_advance shapes (I.withLabels labels) Γ c.returns count.ty τ
    (s₂.inLine loc.line) s₁.temps
  have hback : Flows shapes (I.withLabels labels)
      (within Γ c.returns [] (rounds s₁.temps count.ty τ))
      [(s₂.inLine loc.line).instr (.jump s₁.label)] [Note.plain]
      (within Γ c.returns [] (rounds s₁.temps count.ty τ)) :=
    flows_jump hstart (.refl _)
  have hdone := flows_label shapes (I.withLabels labels) (s₂.inLine loc.line) hafter
    (.refl (within Γ c.returns [] (rounds s₁.temps count.ty τ)))
  have htop := (hcounting.append henter).append hmore
  rw [← List.append_assoc, ← List.append_assoc] at htop
  exact ((((((htop.append hbody).append hnext).append hadvance).append hback).append
    hdone).entails (entails_of_rounds hτ₁))

/-- The code of a `for` loop.  What its first part declares is known at its three labels. -/
theorem typed_for {Γ₂ : Env} {k₁ k₂ k₃ : Nat} {σ' : Scene} {loc : Loc} {init update : Stmt}
    {e : Expr} {body : List Stmt} {s₁ s₃ s₄ s₆ : State} {first test last : List Instr}
    (hΓ : Scoped c I Γ k)
    (hci : StmtCode c (s.inLine loc.line) init first s₁)
    (hi : StmtTyped σ Γ.enter k init Γ₁ k₁)
    (hce : ExprCode c (s₁.inLine loc.line).nextLabel.nextLabel.nextLabel e test a s₃)
    (he : ConditionTyped Γ₁ e t)
    (hcb : BlockCode (c.inLoop (s₁.inLine loc.line).nextLabel.label
      (s₁.inLine loc.line).nextLabel.nextLabel.label) s₃ body code s₄)
    (hb : BlockTyped σ' Γ₁.enter k₂ body Γ₂ k₃)
    (hcu : StmtCode c (s₄.inLine loc.line) update last s₆)
    (hu : StmtTyped σ Γ₁ k₁ update Γ₁ k₂) (hτ : Supported s.temps τ)
    (hinit : Typed shapes I c (s.inLine loc.line) s₁ first (init.notes c.signatures c.returns)
      Γ.enter Γ₁ τ)
    (hbody : Typed shapes I (c.inLoop (s₁.inLine loc.line).nextLabel.label
      (s₁.inLine loc.line).nextLabel.nextLabel.label) s₃ s₄ code
      (Stmt.blockNotes c.signatures c.returns body) Γ₁.enter Γ₂ τ)
    (hupdate : Typed shapes I c (s₄.inLine loc.line) s₆ last (update.notes c.signatures c.returns)
      Γ₁ Γ₁ τ) :
    Typed shapes I c s (s₆.inLine loc.line)
      (first ++ [(s₁.inLine loc.line).instr (.label (s₁.inLine loc.line).label)] ++ test ++
        [s₃.instr (.jumpIfFalse a (s₁.inLine loc.line).nextLabel.nextLabel.label)] ++ code ++
        [(s₄.inLine loc.line).instr (.label (s₁.inLine loc.line).nextLabel.label)] ++ last ++
        [(s₆.inLine loc.line).instr (.jump (s₁.inLine loc.line).label)] ++
        [(s₆.inLine loc.line).instr (.label (s₁.inLine loc.line).nextLabel.nextLabel.label)])
      ((Stmt.for loc init e update body).notes c.signatures c.returns) Γ Γ τ := by
  have hlabels₁ : s.labels ≤ s₁.labels := (StmtCode.labelled _ hci).labels
  have hlabels₃ : s₃.labels = s₁.labels + 3 := hce.supplied.labels
  have hlabels₄ : s₃.labels ≤ s₄.labels := (BlockCode.labelled _ hcb).labels
  have hlabels₆ : s₄.labels ≤ s₆.labels := (StmtCode.labelled _ hcu).labels
  have hτ₁ : Supported s₁.temps τ := hτ.mono (StmtCode.labelled _ hci).temps
  have hΓ₁ := hΓ.enter.stmt hi (roots_stmt hΓ hi)
  have hΓ₂ := hΓ₁.mono (hu.shadows_le _)
  have hinner : (within Γ₁ c.returns [] τ).Entails shapes (within Γ c.returns [] τ) :=
    entails_within shapes c.returns [] (fun _ _ ht => hi.locals_le hΓ.slotted.enter ht)
      fun _ _ h => h
  obtain ⟨L₁, hL₁⟩ := hinit
  obtain ⟨L₂, hL₂⟩ := hbody
  obtain ⟨L₃, hL₃⟩ := hupdate
  refine ⟨splitAt s₁.labels L₁ (splitAt (s₁.labels + 3)
    (fun _ => some (within Γ₁ c.returns [] τ)) (splitAt s₄.labels L₂ L₃)),
    fun labels hls hj => ?_⟩
  change LabelsAre labels s.labels s₆.labels _ at hls
  have hown := hls.right hlabels₁
  have hstart : labels (s₁.inLine loc.line).label = some (within Γ₁ c.returns [] τ) :=
    hown.first (n := s₁.labels) (by omega) (by omega) (by omega)
  have hagain : labels (s₁.inLine loc.line).nextLabel.label =
      some (within Γ₁ c.returns [] τ) :=
    hown.first (n := s₁.labels + 1) (by omega) (by omega) (by omega)
  have hafter : labels (s₁.inLine loc.line).nextLabel.nextLabel.label =
      some (within Γ₁ c.returns [] τ) :=
    hown.first (n := s₁.labels + 2) (by omega) (by omega) (by omega)
  have hrest := hown.right (Nat.le_add_right s₁.labels 3)
  have hinit := hL₁ labels (hls.left (by omega)) hj
  have henter := flows_label shapes (I.withLabels labels) (s₁.inLine loc.line) hstart
    (.refl (within Γ₁ c.returns [] τ))
  have htest := flows_test shapes c.returns (hΓ₁.withLabels labels) hce he hτ₁ hafter (.refl _)
  have hbody := hL₂ labels ((hrest.left hlabels₆).sub (by omega) (Nat.le_refl _))
    (jumps_inLoop hagain hafter (.refl _))
  have hnext := flows_label shapes (I.withLabels labels) (s₄.inLine loc.line) hagain
    (entails_block hΓ₂.slotted hb)
  have hupdate := hL₃ labels (hrest.right (by omega)) (hj.of_entails hinner)
  have hback : Flows shapes (I.withLabels labels) (within Γ₁ c.returns [] τ)
      [(s₆.inLine loc.line).instr (.jump (s₁.inLine loc.line).label)] [Note.plain]
      (within Γ₁ c.returns [] τ) := flows_jump hstart (.refl _)
  have hdone := flows_label shapes (I.withLabels labels) (s₆.inLine loc.line) hafter
    (.refl (within Γ₁ c.returns [] τ))
  have htop := (hinit.append henter).append htest
  rw [← List.append_assoc, ← List.append_assoc] at htop
  exact ((((((htop.append hbody).append hnext).append hupdate).append hback).append
    hdone).entails hinner)

mutual

/-- The code of a statement. -/
theorem flows_stmt (st : Stmt) : ∀ {c : Context} {σ : Scene} {Γ Γ' : Env} {k k' : Nat}
    {s s' : State} {code : List Instr} {τ : Temps}, StmtCode c s st code s' →
    StmtTyped σ Γ k st Γ' k' → Scoped c I Γ k → Γ'.Roots I.globals →
    (∀ t, σ.returns = some t → c.returns = t) → Supported s.temps τ →
    Typed shapes I c s s' code (st.notes c.signatures c.returns) Γ Γ' τ := by
  intro c σ Γ Γ' k k' s s' code τ hcode htyped hΓ hr hret hτ
  cases htyped with
  | @decl _ _ _ _ _ loc x declared found t init hw hi ht hx =>
    cases hcode with
    | decl hc =>
      refine .straight fun labels => ?_
      exact flows_variable (hΓ.withLabels labels) hx.binding hc hi (accepts_of_declaredTy? ht)
        (writes_of_declares hx hr) hτ
  | assign hx hv ht =>
    cases hcode with
    | assign hc =>
      refine .straight fun labels => ?_
      have hself := fun τ' => writes_self
        ((hΓ.withLabels labels).bound (τ := τ') c.returns [] hx)
      exact flows_variable (hΓ.withLabels labels) hx.binding hc hv ht hself hτ
  | store hx hv hs ht =>
    cases hcode with
    | store hc =>
      refine .straight fun labels => ?_
      exact flows_element (hΓ.withLabels labels) hx hc hs hv ht hτ
  | cond he hb =>
    cases hcode with
    | cond hce hcb =>
      exact typed_cond hΓ hce he hcb hb hτ
        (flows_block _ hcb hb hΓ.enter (roots_block hΓ hb) hret (hτ.mono hce.supplied.temps))
  | branch he hb ho =>
    cases hcode with
    | branch hce hcb hco =>
      have hτ₁ := hτ.mono hce.supplied.temps
      have hmono := hΓ.mono (hb.shadows_le _)
      exact typed_branch hΓ hce he hcb hb hco ho hτ
        (flows_block _ hcb hb hΓ.enter (roots_block hΓ hb) hret hτ₁)
        (flows_block _ hco ho hmono.enter (roots_block hmono ho) hret
          (hτ₁.mono (BlockCode.labelled _ hcb).temps))
  | «while» he hb =>
    cases hcode with
    | «while» h₀ hce hcb =>
      subst h₀
      exact typed_while hΓ hce he hcb hb hτ (flows_block _ hcb hb (hΓ.enter.inLoop _ _)
        (roots_block hΓ hb) hret (hτ.mono hce.supplied.temps))
  | «repeat» he ht hb =>
    cases hcode with
    | «repeat» hce hcb h₃ =>
      subst h₃
      have hτ₁ := hτ.mono hce.supplied.temps
      exact typed_repeat hΓ hce he ht hcb hb hτ (flows_block _ hcb hb (hΓ.enter.inLoop _ _)
        (roots_block hΓ hb) hret ((supported_rounds _ hτ₁).mono (Nat.le_succ _)))
  | «for» hs hi he hsu hnd hu hb =>
    cases hcode with
    | «for» hci h₂ hce hcb h₅ hcu =>
      subst h₂ h₅
      have hτ₃ := (hτ.mono (StmtCode.labelled _ hci).temps).mono hce.supplied.temps
      have hroots := roots_stmt hΓ hi
      have hΓ₁ := hΓ.enter.stmt hi hroots
      have hΓ₂ := hΓ₁.mono (hu.shadows_le _)
      exact typed_for hΓ hci hi hce he hcb hb hcu hu hτ
        (flows_stmt _ hci hi hΓ.enter hroots hret hτ)
        (flows_block _ hcb hb (hΓ₂.enter.inLoop _ _) (roots_block hΓ₂ hb) hret hτ₃)
        (flows_stmt _ hcu hu hΓ₁ hroots hret (hτ₃.mono (BlockCode.labelled _ hcb).temps))
  | «break» hl =>
    cases hcode with
    | «break» hc =>
      refine ⟨fun _ => none, fun labels _ hj => ?_⟩
      obtain ⟨T, hT, hS⟩ := hj _ hc _ (.inr rfl)
      exact flows_jump hT hS
  | «continue» hl =>
    cases hcode with
    | «continue» hc =>
      refine ⟨fun _ => none, fun labels _ hj => ?_⟩
      obtain ⟨T, hT, hS⟩ := hj _ hc _ (.inl rfl)
      exact flows_jump hT hS
  | leave hf =>
    cases hcode with
    | leave => exact .straight fun labels => .one (.leave rfl)
  | @«return» _ _ _ loc e returns t hf hv he ht =>
    cases hcode with
    | @«return» _ _ _ _ _ code a hce =>
      obtain rfl := hret _ hf
      refine .straight fun labels => ?_
      obtain ⟨⟨τ₁, hτ₁, hf₁, ho₁, -⟩, -⟩ :=
        evaluates_widened shapes c.returns τ (hΓ.withLabels labels) hce he
      have hm : Moves shapes (Note.widenedTy e.ty c.returns) c.returns := by
        rw [ty_of_exprTyped he]
        exact moves_of_accepts ht
      exact hf₁.append (.one (.return ho₁ hm rfl))
  | print hv =>
    cases hcode with
    | print hc => exact .straight fun labels => flows_prints (hΓ.withLabels labels) hc hv hτ
  | @input _ _ _ loc x b hx hread =>
    cases hcode with
    | @input _ _ _ _ b' hb =>
      obtain rfl : b = b' := Option.some.inj (hx.binding.symm.trans hb)
      refine .straight fun labels => ?_
      rw [Stmt.notes, ty_of_bound hb]
      exact .one (.input (writes_self ((hΓ.withLabels labels).bound c.returns [] hx)))
  | @expr _ _ _ loc e t hs he =>
    cases hcode with
    | @call _ _ _ _ m f args target params returns passing hf hargs =>
      cases he with
      | call hm ha ht =>
        obtain ⟨rfl, hcalls⟩ := calls_of_callTy? hΓ.agrees hf ht
        have hnotes : Lowering.callee? ⟨c.signatures, .unknown, none⟩ f =
            some (target, params, t) := hf
        rw [Stmt.notes, hnotes]
        refine .straight fun labels => ?_
        obtain ⟨τ₁, hτ₁, hf₁⟩ := flows_arguments shapes c.returns (hΓ.withLabels labels) args [] τ
          hargs ha hcalls.passes
        have hf₂ := hcalls.flows shapes c.returns [] τ₁ s' (I := I.withLabels labels) ha hΓ.callees
          (.inl rfl)
        exact (hf₁.append hf₂).entails (entails_of_below shapes Γ c.returns [] hτ hτ₁)
    | expr hne hce =>
      refine .straight fun labels => ?_
      obtain ⟨τ₁, hτ₁, hf₁, -, -⟩ :=
        evaluates_expr shapes c.returns (hΓ.withLabels labels) e [] τ hce he
      have hnotes : (Stmt.expr loc e).notes c.signatures c.returns = e.notes c.signatures := by
        cases e with
        | call m f args => exact absurd rfl (hne m f args)
        | _ => rfl
      rw [hnotes]
      exact hf₁.entails (entails_of_below shapes Γ c.returns [] hτ hτ₁)
termination_by structural st

/-- The code of statements one after the other. -/
theorem flows_block (ss : List Stmt) : ∀ {c : Context} {σ : Scene} {Γ Γ' : Env} {k k' : Nat}
    {s s' : State} {code : List Instr} {τ : Temps}, BlockCode c s ss code s' →
    BlockTyped σ Γ k ss Γ' k' → Scoped c I Γ k → Γ'.Roots I.globals →
    (∀ t, σ.returns = some t → c.returns = t) → Supported s.temps τ →
    Typed shapes I c s s' code (Stmt.blockNotes c.signatures c.returns ss) Γ Γ' τ := by
  intro c σ Γ Γ' k k' s s' code τ hcode htyped hΓ hr hret hτ
  cases htyped with
  | nil =>
    cases hcode
    exact .straight fun labels => .nil (.refl _)
  | cons hs hss =>
    cases hcode with
    | @cons _ _ s₁ _ _ _ code rest hcs hcss =>
      have hl₁ := StmtCode.labelled _ hcs
      have hl₂ := BlockCode.labelled _ hcss
      have hroots := hss.roots hr
      obtain ⟨L₁, hL₁⟩ := flows_stmt _ hcs hs hΓ hroots hret hτ
      obtain ⟨L₂, hL₂⟩ := flows_block _ hcss hss (hΓ.stmt hs hroots) hr hret (hτ.mono hl₁.temps)
      refine ⟨splitAt s₁.labels L₁ L₂, fun labels hls hj => ?_⟩
      have hlocals := entails_within (τ := τ) shapes c.returns []
        (fun _ _ ht => hs.locals_le hΓ.slotted ht) fun _ _ h => h
      exact (hL₁ labels (hls.left hl₂.labels) hj).append
        (hL₂ labels (hls.right hl₁.labels) (hj.of_entails hlocals))
termination_by structural ss

end

end

end Typing

end NumericScript
