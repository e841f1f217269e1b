import NumericScript.Proofs.Analysis.Scopes

/-! # Analysis follows its rules

What analysis reports stays reported, so if there is nothing in the end there was nothing at
any time, and every step has found what it asks for.

* `Runs`: a step of analysis after which no error is reported.
* `exprTyped_of_expr`, `stmtTyped_of_stmt`: the parts of a program.
* `Program.typed_of_analyze`: programs. -/

namespace NumericScript

namespace Analysis

/-! ### Steps without reports -/

/-- There are no errors among reports. -/
def Clean (reports : List SemanticReport) : Prop := ∀ r ∈ reports, r.cause.severity ≠ .error

/-- A step after which no error is reported. -/
def Runs {α : Type} (x : Analyze α) (s : State) (a : α) (s' : State) : Prop :=
  x.run s = (a, s') ∧ Clean s'.reports

section

variable {α β : Type} {s s' : State}

theorem runs_bind {x : Analyze α} {f : α → Analyze β} {b : β} :
    Runs (x >>= f) s b s' ↔ ∃ a s₁, x.run s = (a, s₁) ∧ Runs (f a) s₁ b s' := by
  constructor
  · intro h
    exact ⟨(x.run s).1, (x.run s).2, rfl, h⟩
  · rintro ⟨a, s₁, hx, h⟩
    have hrun : (x >>= f).run s = (f a).run s₁ := by
      change (f (x.run s).1).run (x.run s).2 = _
      rw [hx]
    exact ⟨hrun.trans h.1, h.2⟩

theorem runs_pure {a b : α} : Runs (pure a) s b s' ↔ b = a ∧ s' = s ∧ Clean s.reports := by
  constructor
  · rintro ⟨⟨⟩, h⟩
    exact ⟨rfl, rfl, h⟩
  · rintro ⟨rfl, rfl, h⟩
    exact ⟨rfl, h⟩

theorem runs_get {f : State → Analyze α} {a : α} :
    Runs (get >>= f) s a s' ↔ Runs (f s) s a s' := Iff.rfl

theorem not_runs_reportNear {cause : SemanticError} {loc : Loc} {suggestions : List String}
    {u : Unit} (hc : cause.severity = .error) :
    ¬ Runs (reportNear cause loc suggestions) s u s' := by
  rintro ⟨⟨⟩, h⟩
  exact h ⟨cause, loc, suggestions⟩ (List.mem_append_right _ (List.mem_singleton.2 rfl)) hc

theorem not_runs_report {cause : SemanticError} {loc : Loc} {u : Unit}
    (hc : cause.severity = .error) : ¬ Runs (report cause loc) s u s' := not_runs_reportNear hc

theorem runs_demand {ok : Bool} {cause : SemanticError} {loc : Loc} {u : Unit}
    (hc : cause.severity = .error) (h : Runs (demand ok cause loc) s u s') :
    ok = true ∧ s' = s := by
  unfold demand at h
  split at h
  · rename_i hok
    exact ⟨hok, (runs_pure.1 h).2.1⟩
  · exact absurd h (not_runs_report hc)

/-- A step that came after no error was reported, and that notes at most what is used. -/
structure Keeps (s s' : State) : Prop where
  reports : Clean s.reports
  loops : s'.loops = s.loops
  enclosing : s'.enclosing = s.enclosing
  shadows : s'.shadows = s.shadows
  shows : ∀ Γ, s.scopes.Shows Γ → s'.scopes.Shows Γ

theorem Keeps.refl (h : Clean s.reports) : Keeps s s := ⟨h, rfl, rfl, rfl, fun _ h => h⟩

theorem Keeps.trans {s₁ : State} (h : Keeps s s₁) (h' : Keeps s₁ s') : Keeps s s' :=
  ⟨h.reports, h'.loops.trans h.loops, h'.enclosing.trans h.enclosing,
    h'.shadows.trans h.shadows, fun Γ hΓ => h'.shows Γ (h.shows Γ hΓ)⟩

theorem keeps_update {id : Nat} {f : Symbol → Symbol} {u : Unit}
    (hf : ∀ symbol, (f symbol).entry = symbol.entry)
    (h : Runs (modifyScopes (·.update id f)) s u s') : Keeps s s' := by
  obtain ⟨⟨⟩, hr⟩ := h
  exact ⟨hr, rfl, rfl, rfl, fun Γ hΓ => hΓ.update id hf⟩

theorem keeps_used {id : Nat} {u : Unit}
    (h : Runs (modifyScopes (·.update id fun s => { s with used := true })) s u s') :
    Keeps s s' := by
  refine keeps_update (fun symbol => ?_) h
  rfl

theorem keeps_initialized {id : Nat} {u : Unit}
    (h : Runs (modifyScopes (·.update id fun s => { s with initialized := true })) s u s') :
    Keeps s s' := by
  refine keeps_update (fun symbol => ?_) h
  rfl

end

/-! ### Variables and calls -/

section

variable {s s' : State}

/-- A name that is looked up stands for a variable. -/
theorem exists_of_resolve {x x' : Name} {loc : Loc} {read : Bool}
    {found : Option (Nat × Symbol)} (h : Runs (resolve x loc read) s (x', found) s') :
    ∃ id symbol, found = some (id, symbol) ∧ x' = x.bind symbol.binding ∧ Keeps s s' ∧
      ∀ Γ, s.scopes.Shows Γ → Γ.find? x.text = some (.var symbol.binding) := by
  unfold resolve at h
  rw [runs_get] at h
  split at h
  · simp only [runs_bind, runs_pure] at h
    obtain ⟨u, s₁, hu, -, rfl, hr⟩ := h
    exact absurd ⟨hu, hr⟩ (not_runs_reportNear rfl)
  · rename_i id symbol hs
    split at h
    · simp only [runs_bind, runs_pure] at h
      obtain ⟨u, s₁, hu, -, rfl, hr⟩ := h
      exact absurd ⟨hu, hr⟩ (not_runs_report rfl)
    · rename_i hf
      have hkeeps : (x', found) = (x.bind symbol.binding, some (id, symbol)) ∧ Keeps s s' := by
        cases read with
        | true =>
          obtain ⟨u, s₁, hu, h⟩ := runs_bind.1 h
          obtain ⟨he, rfl, hr⟩ := runs_pure.1 h
          exact ⟨he, keeps_used ⟨hu, hr⟩⟩
        | false =>
          obtain ⟨he, rfl, hr⟩ := runs_pure.1 h
          exact ⟨he, .refl hr⟩
      obtain ⟨⟨⟩, hkeeps⟩ := hkeeps
      refine ⟨id, symbol, rfl, rfl, hkeeps, fun Γ hΓ => ?_⟩
      · rcases hΓ.resolve x.text with ⟨hnone, -⟩ | ⟨id', symbol', hsome, hΓ⟩
        · rw [hnone] at hs
          cases hs
        · rw [hsome] at hs
          cases hs
          rw [hΓ, Symbol.entry_of_isFunction (by simpa using hf)]

theorem runs_checkArguments {f : String} {loc : Loc} {u : Unit} : ∀ {ds : List Demand}
    {ts : List Ty} {position : Nat} {s s' : State},
    Runs (checkArguments f loc position ds ts) s u s' →
    ((ds.zip ts).all fun p => p.1.accepts p.2) = true ∧ s' = s
  | [], _, _, _, _, h => ⟨rfl, (runs_pure.1 h).2.1⟩
  | _ :: _, [], _, _, _, h => ⟨rfl, (runs_pure.1 h).2.1⟩
  | d :: ds, t :: ts, position, s, s', h => by
    obtain ⟨_, s₁, hd, h⟩ := runs_bind.1 h
    obtain ⟨hall, rfl⟩ := runs_checkArguments h
    obtain ⟨haccepts, rfl⟩ := runs_demand rfl ⟨hd, h.2⟩
    exact ⟨by simp [haccepts, hall], rfl⟩

/-- A call that is accepted. -/
theorem callTy_of_callTy {f : String} {args : List Ty} {loc : Loc} {t : Ty}
    (h : Runs (callTy f args loc) s t s') :
    Keeps s s' ∧ ∀ Γ, s.scopes.Shows Γ → Γ.callTy? f args = some t := by
  unfold callTy at h
  rw [runs_get] at h
  split at h
  · rename_i id params returns hf
    simp only [runs_bind] at h
    obtain ⟨_, s₁, hu, h⟩ := h
    split at h
    · rename_i hlen
      simp only [runs_bind, runs_pure] at h
      obtain ⟨_, s₂, hc, rfl, rfl, hr⟩ := h
      obtain ⟨hall, rfl⟩ := runs_checkArguments ⟨hc, hr⟩
      refine ⟨keeps_used ⟨hu, hr⟩, fun Γ hΓ => ?_⟩
      have hcallee := hΓ.callee f
      rw [hf] at hcallee
      rw [Env.callTy?, ← hcallee]
      have hzip : ((params.zip args).all fun p => p.1.accepts p.2) = true := by
        simpa [List.zip_map_left, List.all_map, Function.comp_def, Demand.accepts] using hall
      exact if_pos ⟨hlen, hzip⟩
    · simp only [runs_bind, runs_pure] at h
      obtain ⟨_, s₂, hc, rfl, rfl, hr⟩ := h
      exact absurd ⟨hc, hr⟩ (not_runs_report rfl)
  · rename_i hf
    split at h
    · rename_i b hb
      split at h
      · rename_i harity
        simp only [runs_bind, runs_pure] at h
        obtain ⟨_, s₂, hc, rfl, rfl, hr⟩ := h
        obtain ⟨hall, rfl⟩ := runs_checkArguments ⟨hc, hr⟩
        refine ⟨.refl hr, fun Γ hΓ => ?_⟩
        have hcallee := hΓ.callee f
        rw [hf] at hcallee
        rw [Env.callTy?, ← hcallee]
        simp only [Option.map_none, hb]
        have hzip : ((b.params.zip args).all fun p => p.1.accepts p.2) = true := by
          simpa [List.zip_map_left, List.all_map, Function.comp_def, Demand.accepts] using hall
        exact if_pos ⟨harity, hzip⟩
      · simp only [runs_bind, runs_pure] at h
        obtain ⟨_, s₂, hc, rfl, rfl, hr⟩ := h
        exact absurd ⟨hc, hr⟩ (not_runs_report rfl)
    · rw [runs_get] at h
      dsimp only at h
      split at h
      · simp only [runs_bind, runs_pure] at h
        obtain ⟨_, s₂, hc, rfl, rfl, hr⟩ := h
        exact absurd ⟨hc, hr⟩ (not_runs_report rfl)
      · simp only [runs_bind, runs_pure] at h
        obtain ⟨_, s₂, hc, rfl, rfl, hr⟩ := h
        exact absurd ⟨hc, hr⟩ (not_runs_reportNear rfl)

end

/-! ### Types -/

section

variable {s s' : State} {loc : Loc} {t : Ty}

theorem eq_of_binaryTy {op : BinaryOp} {left right : Ty}
    (h : Runs (binaryTy op left right loc) s t s') :
    binaryTy? op left right = some t ∧ s' = s := by
  unfold binaryTy at h
  unfold binaryTy?
  split at h
  · rename_i hu
    obtain ⟨rfl, rfl, -⟩ := runs_pure.1 h
    exact ⟨if_pos hu, rfl⟩
  · rename_i hu
    rw [if_neg hu]
    split at h
    · rename_i t' ht
      obtain ⟨rfl, rfl, -⟩ := runs_pure.1 h
      exact ⟨ht, rfl⟩
    · obtain ⟨_, s₁, hr, h⟩ := runs_bind.1 h
      obtain ⟨-, rfl, hq⟩ := runs_pure.1 h
      exact absurd ⟨hr, hq⟩ (not_runs_report rfl)

theorem eq_of_unaryTy {op : UnaryOp} {operand : Ty} (h : Runs (unaryTy op operand loc) s t s') :
    unaryTy? op operand = some t ∧ s' = s := by
  unfold unaryTy at h
  unfold unaryTy?
  split at h
  · rename_i hu
    obtain ⟨rfl, rfl, -⟩ := runs_pure.1 h
    exact ⟨if_pos hu, rfl⟩
  · rename_i hu
    rw [if_neg hu]
    split at h
    · rename_i t' ht
      obtain ⟨rfl, rfl, -⟩ := runs_pure.1 h
      exact ⟨ht, rfl⟩
    · obtain ⟨_, s₁, hr, h⟩ := runs_bind.1 h
      obtain ⟨-, rfl, hq⟩ := runs_pure.1 h
      exact absurd ⟨hr, hq⟩ (not_runs_report rfl)

theorem runs_checkIndex {e : Expr} {u : Unit} (h : Runs (checkIndex (e, t)) s u s') :
    maybeInt t = true ∧ s' = s := runs_demand rfl h

theorem not_runs_report_pure {α : Type} {cause : SemanticError} {a b : α}
    (hc : cause.severity = .error) : ¬ Runs (report cause loc >>= fun _ => pure a) s b s' := by
  intro h
  obtain ⟨_, s₁, hr, h⟩ := runs_bind.1 h
  obtain ⟨-, rfl, hq⟩ := runs_pure.1 h
  exact not_runs_report hc ⟨hr, hq⟩

theorem eq_of_elementTy {container : Ty} {two : Bool}
    (h : Runs (elementTy container two loc) s t s') :
    elementTy? container two = some t ∧ s' = s := by
  unfold elementTy at h
  split at h
  · obtain ⟨rfl, rfl, -⟩ := runs_pure.1 h
    exact ⟨rfl, rfl⟩
  · obtain ⟨rfl, rfl, -⟩ := runs_pure.1 h
    exact ⟨rfl, rfl⟩
  · obtain ⟨rfl, rfl, -⟩ := runs_pure.1 h
    exact ⟨rfl, rfl⟩
  all_goals exact absurd h (not_runs_report_pure rfl)

theorem eq_of_joinElement {element found : Ty}
    (h : Runs (joinElement element found loc) s t s') :
    joinElement? element found = some t ∧ s' = s := by
  unfold joinElement at h
  split at h
  · exact absurd h (not_runs_report_pure rfl)
  · obtain ⟨rfl, rfl, -⟩ := runs_pure.1 h
    exact ⟨by cases t <;> rfl, rfl⟩
  · rename_i hv hu
    obtain ⟨rfl, rfl, -⟩ := runs_pure.1 h
    refine ⟨?_, rfl⟩
    unfold joinElement?
    split <;> simp_all
  · obtain ⟨rfl, rfl, -⟩ := runs_pure.1 h
    exact ⟨rfl, rfl⟩
  · obtain ⟨rfl, rfl, -⟩ := runs_pure.1 h
    exact ⟨rfl, rfl⟩
  · split at h
    · rename_i he
      obtain ⟨rfl, rfl, -⟩ := runs_pure.1 h
      refine ⟨?_, rfl⟩
      unfold joinElement?
      split <;> simp_all
    · exact absurd h (not_runs_report_pure rfl)

theorem runs_checkRow {cols row : Nat} {items : List Expr} {u : Unit}
    (h : Runs (checkRow cols row items) s u s') : items.length = cols ∧ s' = s := by
  obtain ⟨hc, rfl⟩ := runs_demand rfl h
  exact ⟨by simpa using hc, rfl⟩

end

/-! ### Expressions -/

theorem Mark.ty_annotate {m : Mark} (h : m.ty = none) (t : Ty) :
    (m.annotate t).ty = some t := by
  rw [Mark.annotate, h]
  rfl

theorem Name.binding_bind {x : Name} (h : x.binding = none) (b : Binding) :
    (x.bind b).binding = some b := by
  rw [Name.bind, h]
  rfl

/-- What comes of a part of a program that has the type `T` wherever `s` shows what is in
sight. -/
structure Comes (s s' : State) (T : Env → Prop) : Prop where
  keeps : Keeps s s'
  typed : ∀ Γ, s.scopes.Shows Γ → T Γ

theorem Comes.after {s s₁ s' : State} {T : Env → Prop} (h : Comes s₁ s' T) (hk : Keeps s s₁) :
    ∀ Γ, s.scopes.Shows Γ → T Γ := fun Γ hΓ => h.typed Γ (hk.shows Γ hΓ)

mutual

theorem exprTyped_of_expr (e : Expr) : ∀ {s s' : State} {e' : Expr} {t : Ty}, e.IsSource →
    Runs (expr e) s (e', t) s' → Comes s s' fun Γ => ExprTyped Γ e' t := by
  intro s s' e' t he h
  cases e with
  | int m v =>
    obtain ⟨⟨rfl, rfl⟩, rfl, hr⟩ := runs_pure.1 h
    exact ⟨.refl hr, fun Γ _ => .int (Mark.ty_annotate he _)⟩
  | float m v =>
    obtain ⟨⟨rfl, rfl⟩, rfl, hr⟩ := runs_pure.1 h
    exact ⟨.refl hr, fun Γ _ => .float (Mark.ty_annotate he _)⟩
  | str m v =>
    obtain ⟨⟨rfl, rfl⟩, rfl, hr⟩ := runs_pure.1 h
    exact ⟨.refl hr, fun Γ _ => .str (Mark.ty_annotate he _)⟩
  | bool m v =>
    obtain ⟨⟨rfl, rfl⟩, rfl, hr⟩ := runs_pure.1 h
    exact ⟨.refl hr, fun Γ _ => .bool (Mark.ty_annotate he _)⟩
  | name m x =>
    obtain ⟨⟨x', found⟩, s₁, hx, h⟩ := runs_bind.1 h
    obtain ⟨⟨rfl, rfl⟩, rfl, hr⟩ := runs_pure.1 h
    obtain ⟨id, symbol, rfl, rfl, hk, hΓ⟩ := exists_of_resolve ⟨hx, hr⟩
    refine ⟨hk, fun Γ hs => ?_⟩
    exact .name (b := symbol.binding) (Mark.ty_annotate he.1 _)
      ⟨hΓ Γ hs, Name.binding_bind he.2 _⟩
  | binary m op l r =>
    obtain ⟨hm, hl, hr⟩ := he
    obtain ⟨⟨l', left⟩, s₁, hl', h⟩ := runs_bind.1 h
    obtain ⟨⟨r', right⟩, s₂, hr', h⟩ := runs_bind.1 h
    obtain ⟨t', s₃, ht, h⟩ := runs_bind.1 h
    obtain ⟨⟨rfl, rfl⟩, rfl, hq⟩ := runs_pure.1 h
    obtain ⟨htype, rfl⟩ := eq_of_binaryTy ⟨ht, hq⟩
    have hr := exprTyped_of_expr r hr ⟨hr', hq⟩
    have hl := exprTyped_of_expr l hl ⟨hl', hr.keeps.reports⟩
    refine ⟨hl.keeps.trans hr.keeps, fun Γ hΓ => ?_⟩
    exact .binary (Mark.ty_annotate hm _) (hl.typed Γ hΓ) (hr.after hl.keeps Γ hΓ) htype
  | unary m op e =>
    obtain ⟨hm, he⟩ := he
    obtain ⟨⟨e', operand⟩, s₁, he', h⟩ := runs_bind.1 h
    obtain ⟨t', s₃, ht, h⟩ := runs_bind.1 h
    obtain ⟨⟨rfl, rfl⟩, rfl, hq⟩ := runs_pure.1 h
    obtain ⟨htype, rfl⟩ := eq_of_unaryTy ⟨ht, hq⟩
    have he := exprTyped_of_expr e he ⟨he', hq⟩
    exact ⟨he.keeps, fun Γ hΓ => .unary (Mark.ty_annotate hm _) (he.typed Γ hΓ) htype⟩
  | call m f args =>
    obtain ⟨hm, ha⟩ := he
    obtain ⟨args', s₁, ha', h⟩ := runs_bind.1 h
    obtain ⟨t', s₃, ht, h⟩ := runs_bind.1 h
    obtain ⟨⟨rfl, rfl⟩, rfl, hq⟩ := runs_pure.1 h
    obtain ⟨hk, ht⟩ := callTy_of_callTy ⟨ht, hq⟩
    have ha := exprsTyped_of_exprs args ha ⟨ha', hk.reports⟩
    refine ⟨ha.keeps.trans hk, fun Γ hΓ => ?_⟩
    exact .call (Mark.ty_annotate hm _) (ha.typed Γ hΓ) (ht Γ (ha.keeps.shows Γ hΓ))
  | array m items =>
    obtain ⟨hm, hi, -⟩ := he
    obtain ⟨⟨items', element⟩, s₁, hi', h⟩ := runs_bind.1 h
    obtain ⟨⟨rfl, rfl⟩, rfl, hq⟩ := runs_pure.1 h
    have hi := elementsTyped_of_elements items hi ⟨hi', hq⟩
    exact ⟨hi.keeps, fun Γ hΓ => .array (Mark.ty_annotate hm _) (hi.typed Γ hΓ)⟩
  | matrix m rows =>
    obtain ⟨hm, hi, -⟩ := he
    obtain ⟨rows', s₁, hi', h⟩ := runs_bind.1 h
    obtain ⟨⟨rfl, rfl⟩, rfl, hq⟩ := runs_pure.1 h
    obtain ⟨hi, hlen, hhead⟩ := rowsTyped_of_matrixRows rows hi ⟨hi', hq⟩
    refine ⟨hi.keeps, fun Γ hΓ => ?_⟩
    exact .matrix (Mark.ty_annotate hm _) (by rw [hlen, hhead]) (hi.typed Γ hΓ)
  | index m base row col =>
    cases col with
    | none =>
      obtain ⟨hm, hb, hr⟩ := he
      obtain ⟨⟨base', container⟩, s₁, hb', h⟩ := runs_bind.1 h
      obtain ⟨⟨row', index⟩, s₂, hr', h⟩ := runs_bind.1 h
      obtain ⟨_, s₃, hi, h⟩ := runs_bind.1 h
      obtain ⟨t', s₄, ht, h⟩ := runs_bind.1 h
      obtain ⟨⟨rfl, rfl⟩, rfl, hq⟩ := runs_pure.1 h
      obtain ⟨htype, rfl⟩ := eq_of_elementTy ⟨ht, hq⟩
      obtain ⟨hindex, rfl⟩ := runs_checkIndex ⟨hi, hq⟩
      have hr := exprTyped_of_expr row hr ⟨hr', hq⟩
      have hb := exprTyped_of_expr base hb ⟨hb', hr.keeps.reports⟩
      refine ⟨hb.keeps.trans hr.keeps, fun Γ hΓ => ?_⟩
      exact .element (Mark.ty_annotate hm _) (hb.typed Γ hΓ) (hr.after hb.keeps Γ hΓ) hindex
        htype
    | some col =>
      obtain ⟨hm, hb, hr, hc⟩ := he
      obtain ⟨⟨base', container⟩, s₁, hb', h⟩ := runs_bind.1 h
      obtain ⟨⟨row', index⟩, s₂, hr', h⟩ := runs_bind.1 h
      obtain ⟨_, s₃, hi, h⟩ := runs_bind.1 h
      obtain ⟨⟨col', index'⟩, s₄, hc', h⟩ := runs_bind.1 h
      obtain ⟨_, s₅, hj, h⟩ := runs_bind.1 h
      obtain ⟨t', s₆, ht, h⟩ := runs_bind.1 h
      obtain ⟨⟨rfl, rfl⟩, rfl, hq⟩ := runs_pure.1 h
      obtain ⟨htype, rfl⟩ := eq_of_elementTy ⟨ht, hq⟩
      obtain ⟨hindex', rfl⟩ := runs_checkIndex ⟨hj, hq⟩
      have hc := exprTyped_of_expr col hc ⟨hc', hq⟩
      obtain ⟨hindex, rfl⟩ := runs_checkIndex ⟨hi, hc.keeps.reports⟩
      have hr := exprTyped_of_expr row hr ⟨hr', hc.keeps.reports⟩
      have hb := exprTyped_of_expr base hb ⟨hb', hr.keeps.reports⟩
      refine ⟨(hb.keeps.trans hr.keeps).trans hc.keeps, fun Γ hΓ => ?_⟩
      exact .entry (Mark.ty_annotate hm _) (hb.typed Γ hΓ) (hr.after hb.keeps Γ hΓ) hindex
        (hc.after (hb.keeps.trans hr.keeps) Γ hΓ) hindex' htype
termination_by structural e

theorem exprsTyped_of_exprs (es : List Expr) : ∀ {s s' : State} {ps : List (Expr × Ty)},
    Expr.AreSource es → Runs (exprs es) s ps s' →
    Comes s s' fun Γ => ExprsTyped Γ (ps.map (·.1)) (ps.map (·.2)) := by
  intro s s' ps hs h
  cases es with
  | nil =>
    obtain ⟨rfl, rfl, hr⟩ := runs_pure.1 h
    exact ⟨.refl hr, fun Γ _ => .nil⟩
  | cons e es =>
    obtain ⟨he, hes⟩ := hs
    obtain ⟨⟨e', t⟩, s₁, he', h⟩ := runs_bind.1 h
    obtain ⟨ps', s₂, hes', h⟩ := runs_bind.1 h
    obtain ⟨rfl, rfl, hq⟩ := runs_pure.1 h
    have hes := exprsTyped_of_exprs es hes ⟨hes', hq⟩
    have he := exprTyped_of_expr e he ⟨he', hes.keeps.reports⟩
    exact ⟨he.keeps.trans hes.keeps, fun Γ hΓ => .cons (he.typed Γ hΓ) (hes.after he.keeps Γ hΓ)⟩
termination_by structural es

theorem elementsTyped_of_elements (es : List Expr) : ∀ {s s' : State} {element t : Ty}
    {es' : List Expr}, Expr.AreSource es → Runs (elements element es) s (es', t) s' →
    Comes s s' fun Γ => ElementsTyped Γ element es' t := by
  intro s s' element t es' hs h
  cases es with
  | nil =>
    obtain ⟨⟨rfl, rfl⟩, rfl, hr⟩ := runs_pure.1 h
    exact ⟨.refl hr, fun Γ _ => .nil⟩
  | cons e es =>
    obtain ⟨he, hes⟩ := hs
    obtain ⟨⟨e', found⟩, s₁, he', h⟩ := runs_bind.1 h
    obtain ⟨joined, s₂, hj, h⟩ := runs_bind.1 h
    obtain ⟨⟨es'', t'⟩, s₃, hes', h⟩ := runs_bind.1 h
    obtain ⟨⟨rfl, rfl⟩, rfl, hq⟩ := runs_pure.1 h
    have hes := elementsTyped_of_elements es hes ⟨hes', hq⟩
    obtain ⟨hjoin, rfl⟩ := eq_of_joinElement ⟨hj, hes.keeps.reports⟩
    have he := exprTyped_of_expr e he ⟨he', hes.keeps.reports⟩
    exact ⟨he.keeps.trans hes.keeps,
      fun Γ hΓ => .cons (he.typed Γ hΓ) hjoin (hes.after he.keeps Γ hΓ)⟩
termination_by structural es

theorem entriesTyped_of_entries (es : List Expr) : ∀ {s s' : State} {es' : List Expr},
    Expr.AreSource es → Runs (entries es) s es' s' →
    Comes s s' (EntriesTyped · es') ∧ es'.length = es.length := by
  intro s s' es' hs h
  cases es with
  | nil =>
    obtain ⟨rfl, rfl, hr⟩ := runs_pure.1 h
    exact ⟨⟨.refl hr, fun Γ _ => .nil⟩, rfl⟩
  | cons e es =>
    obtain ⟨he, hes⟩ := hs
    obtain ⟨⟨e', found⟩, s₁, he', h⟩ := runs_bind.1 h
    obtain ⟨_, s₂, hd, h⟩ := runs_bind.1 h
    obtain ⟨es'', s₃, hes', h⟩ := runs_bind.1 h
    obtain ⟨rfl, rfl, hq⟩ := runs_pure.1 h
    obtain ⟨hes, hlen⟩ := entriesTyped_of_entries es hes ⟨hes', hq⟩
    obtain ⟨hnumber, rfl⟩ := runs_demand rfl ⟨hd, hes.keeps.reports⟩
    have he := exprTyped_of_expr e he ⟨he', hes.keeps.reports⟩
    exact ⟨⟨he.keeps.trans hes.keeps,
      fun Γ hΓ => .cons (he.typed Γ hΓ) hnumber (hes.after he.keeps Γ hΓ)⟩, by simp [hlen]⟩
termination_by structural es

theorem rowsTyped_of_matrixRows (rows : List (List Expr)) : ∀ {s s' : State} {cols row : Nat}
    {rows' : List (List Expr)}, Expr.AreSourceRows rows →
    Runs (matrixRows cols row rows) s rows' s' →
    Comes s s' (RowsTyped · cols rows') ∧ rows'.length = rows.length ∧
      (rows'.headD []).length = (rows.headD []).length := by
  intro s s' cols row rows' hs h
  cases rows with
  | nil =>
    obtain ⟨rfl, rfl, hr⟩ := runs_pure.1 h
    exact ⟨⟨.refl hr, fun Γ _ => .nil⟩, rfl, rfl⟩
  | cons es rows =>
    obtain ⟨he, hes⟩ := hs
    obtain ⟨_, s₁, hd, h⟩ := runs_bind.1 h
    obtain ⟨es', s₂, he', h⟩ := runs_bind.1 h
    obtain ⟨rows'', s₃, hes', h⟩ := runs_bind.1 h
    obtain ⟨rfl, rfl, hq⟩ := runs_pure.1 h
    obtain ⟨hes, hlen, -⟩ := rowsTyped_of_matrixRows rows hes ⟨hes', hq⟩
    obtain ⟨he, hrow⟩ := entriesTyped_of_entries es he ⟨he', hes.keeps.reports⟩
    obtain ⟨hcols, rfl⟩ := runs_checkRow ⟨hd, he.keeps.reports⟩
    exact ⟨⟨he.keeps.trans hes.keeps, fun Γ hΓ =>
      .cons (hrow.trans hcols) (he.typed Γ hΓ) (hes.after he.keeps Γ hΓ)⟩, by simp [hlen], hrow⟩
termination_by structural rows

end

/-- Which expressions may stand alone is not a matter of annotations. -/
theorem standsAlone_of_expr {e e' : Expr} {s s' : State} {t : Ty}
    (h : Runs (expr e) s (e', t) s') : e'.standsAlone = e.standsAlone := by
  have he : e' = ((expr e).run s).1.1 := by rw [h.1]
  subst he
  cases e with
  | index m base row col => cases col <;> rfl
  | _ => rfl

/-! ### Declarations -/

/-- Analysis stands in that surroundings, with those names in sight, after `k` variables have
hidden another one. -/
structure At (s : State) (σ : Scene) (Γ : Env) (k : Nat) : Prop where
  shows : s.scopes.Shows Γ
  returns : s.enclosing.map (·.returns) = σ.returns
  loop : σ.loop = decide (s.loops ≠ 0)
  shadows : s.shadows = k

/-- Steps that came after no error was reported, and that end where they began. -/
structure Stays (s s' : State) : Prop where
  reports : Clean s.reports
  loops : s'.loops = s.loops
  enclosing : s'.enclosing = s.enclosing

section

variable {s s₁ s' : State} {σ : Scene} {Γ Γ' : Env} {k k' : Nat}

theorem Keeps.stays (h : Keeps s s') : Stays s s' := ⟨h.reports, h.loops, h.enclosing⟩

theorem Stays.trans (h : Stays s s₁) (h' : Stays s₁ s') : Stays s s' :=
  ⟨h.reports, h'.loops.trans h.loops, h'.enclosing.trans h.enclosing⟩

theorem At.keeps (h : At s σ Γ k) (hk : Keeps s s') : At s' σ Γ k :=
  ⟨hk.shows Γ h.shows, by rw [hk.enclosing, h.returns], by rw [hk.loops, h.loop],
    hk.shadows.trans h.shadows⟩

theorem At.stays (h : At s σ Γ k) (hs : Stays s s') (hΓ : s'.scopes.Shows Γ')
    (hk : s'.shadows = k') : At s' σ Γ' k' :=
  ⟨hΓ, by rw [hs.enclosing, h.returns], by rw [hs.loops, h.loop], hk⟩

theorem hides_of_resolve (hΓ : s.scopes.Shows Γ) (x : String) :
    (match s.scopes.resolve? x with
      | some (_, symbol) => decide (symbol.storage = Storage.local) && !symbol.isFunction
      | none => false) = (Γ.find? x).any Entry.isLocal := by
  rcases hΓ.resolve x with ⟨hs, hf⟩ | ⟨id, symbol, hs, hf⟩
  · rw [hs, hf]
    rfl
  · rw [hs, hf]
    cases hfun : symbol.isFunction with
    | false =>
      rw [Symbol.entry_of_isFunction hfun]
      simp [Entry.isLocal, hfun, Symbol.binding]
    | true =>
      obtain ⟨params, returns, he⟩ := Symbol.exists_of_isFunction hfun
      rw [he]
      simp [Entry.isLocal, hfun]

/-- The slot of a variable that is declared. -/
theorem run_newSlot (hΓ : s.scopes.Shows Γ) (x : String) :
    (newSlot x Γ.storage).run s =
      (Γ.slot s.shadows x, { s with shadows := Γ.shadows s.shadows x }) := by
  have hrun : (newSlot x Γ.storage).run s =
      if Γ.hides x then (x ++ "#" ++ toString (s.shadows + 1), { s with shadows := s.shadows + 1 })
      else (x, s) := by
    unfold newSlot
    change StateT.run (if (decide (Γ.storage = .local) && (match s.scopes.resolve? x with
      | some (_, symbol) => decide (symbol.storage = Storage.local) && !symbol.isFunction
      | none => false)) = true then _ else _) s = _
    have hcond : (decide (Γ.storage = .local) && (Γ.find? x).any Entry.isLocal) = Γ.hides x := by
      unfold Env.hides Env.storage
      cases Γ.isGlobal <;> simp
    rw [hides_of_resolve hΓ, hcond]
    split <;> rfl
  rw [hrun, Env.slot, Env.shadows]
  split <;> rfl

theorem exists_newSlot (x : String) (storage : Storage) (s : State) :
    ∃ slot k, (newSlot x storage).run s = (slot, { s with shadows := k }) := by
  refine ⟨((newSlot x storage).run s).1, ((newSlot x storage).run s).2.shadows, ?_⟩
  unfold newSlot
  rw [StateT.run_bind]
  dsimp only [get, getThe, MonadStateOf.get, StateT.run, StateT.get, bind, pure]
  split <;> rfl

/-- A variable or a parameter that is declared. -/
theorem declares_of_declare {x x' : Name} {ty : Ty} {kind : SymbolKind} {loc : Loc}
    (hx : x.binding = none) (hplain : x.IsPlain) (hkind : kind = .variable ∨ kind = .parameter)
    (h : Runs (declare x ty kind loc) s x' s') :
    Stays s s' ∧ ∀ Γ, s.scopes.Shows Γ → ∃ Γ' k', Declares Γ s.shadows x' ty Γ' k' ∧
      s'.scopes.Shows Γ' ∧ s'.shadows = k' := by
  unfold declare at h
  rw [runs_get] at h
  obtain ⟨slot, s₁, hslot, h⟩ := runs_bind.1 h
  rw [runs_get] at h
  dsimp only at h
  obtain ⟨slot', k, hrun⟩ :=
    exists_newSlot x.text (if s.scopes.isGlobal then .global else .local) s
  obtain ⟨rfl, rfl⟩ : slot' = slot ∧ { s with shadows := k } = s₁ := by
    rw [hrun] at hslot
    cases hslot
    exact ⟨rfl, rfl⟩
  split at h
  · rename_i id scopes hd
    obtain ⟨_, s₂, hm, h⟩ := runs_bind.1 h
    obtain ⟨rfl, rfl, hr⟩ := runs_pure.1 h
    cases hm
    refine ⟨⟨hr, rfl, rfl⟩, fun Γ hΓ => ?_⟩
    have hstorage : (if s.scopes.isGlobal then .global else .local) = Γ.storage := by
      rw [hΓ.isGlobal, Env.storage]
    rw [hstorage] at hd hrun ⊢
    rw [run_newSlot hΓ] at hrun
    cases hrun
    obtain ⟨hfresh, hshows⟩ := hΓ.declare hd
    refine ⟨_, _, ⟨hplain, hfresh, Name.binding_bind hx _, rfl, rfl⟩, ?_, rfl⟩
    rcases hkind with rfl | rfl <;> exact hshows
  · obtain ⟨_, s₂, hm, h⟩ := runs_bind.1 h
    obtain ⟨rfl, rfl, hr⟩ := runs_pure.1 h
    exact absurd ⟨hm, hr⟩ (not_runs_report rfl)

theorem paramsTyped_of_parameters : ∀ {ps ps' : List Param} {s s' : State},
    (∀ p ∈ ps, p.IsRead fun x => '#' ∉ x.toList) → Runs (parameters ps) s ps' s' →
    Stays s s' ∧ ∀ Γ, s.scopes.Shows Γ → ∃ Γ' k', ParamsTyped Γ s.shadows ps' Γ' k' ∧
      s'.scopes.Shows Γ' ∧ s'.shadows = k'
  | [], ps', s, s', _, h => by
    obtain ⟨rfl, rfl, hr⟩ := runs_pure.1 h
    exact ⟨⟨hr, rfl, rfl⟩, fun Γ hΓ => ⟨Γ, _, .nil, hΓ, rfl⟩⟩
  | p :: ps, ps', s, s', hps, h => by
    obtain ⟨p', s₁, hp, h⟩ := runs_bind.1 h
    obtain ⟨ps'', s₂, hrest, h⟩ := runs_bind.1 h
    obtain ⟨rfl, rfl, hr⟩ := runs_pure.1 h
    obtain ⟨hstays, hrest⟩ :=
      paramsTyped_of_parameters (List.forall_mem_cons.1 hps).2 ⟨hrest, hr⟩
    have hp : Runs (parameter p) s p' s₁ := ⟨hp, hstays.reports⟩
    unfold parameter at hp
    by_cases hvoid : p.ty = .void
    · rw [if_pos hvoid] at hp
      obtain ⟨_, s₃, hreport, hp⟩ := runs_bind.1 hp
      obtain ⟨ty, s₄, hty, hp⟩ := runs_bind.1 hp
      obtain ⟨x', s₅, hx, hp⟩ := runs_bind.1 hp
      obtain ⟨rfl, rfl, hq⟩ := runs_pure.1 hp
      cases hty
      obtain ⟨hbinding, -, hplain⟩ := (List.forall_mem_cons.1 hps).1
      obtain ⟨hs, -⟩ := declares_of_declare hbinding hplain (.inr rfl) ⟨hx, hq⟩
      exact absurd ⟨hreport, hs.reports⟩ (not_runs_report rfl)
    · rw [if_neg hvoid] at hp
      obtain ⟨ty, s₃, hty, hp⟩ := runs_bind.1 hp
      obtain ⟨x', s₄, hx, hp⟩ := runs_bind.1 hp
      obtain ⟨rfl, rfl, hq⟩ := runs_pure.1 hp
      cases hty
      obtain ⟨hbinding, hw, hplain⟩ := (List.forall_mem_cons.1 hps).1
      obtain ⟨hs, hx⟩ := declares_of_declare hbinding hplain (.inr rfl) ⟨hx, hq⟩
      refine ⟨hs.trans hstays, fun Γ hΓ => ?_⟩
      obtain ⟨Γ₁, k₁, hd, hΓ₁, hk₁⟩ := hx Γ hΓ
      obtain ⟨Γ₂, k₂, hps, hΓ₂, hk₂⟩ := hrest Γ₁ hΓ₁
      rw [hk₁] at hps
      exact ⟨Γ₂, k₂, .cons hvoid hw hd hps, hΓ₂, hk₂⟩

end

/-! ### Surroundings -/

section

variable {α : Type} {s s' : State} {σ : Scene} {Γ Γ' : Env} {k k' : Nat} {x : Analyze α} {a : α}

theorem exists_of_inScope (h : Runs (inScope x) s a s') :
    ∃ s₁, Runs x { s with scopes := s.scopes.enter } a s₁ ∧
      s' = { s₁ with scopes := s₁.scopes.exit } := by
  obtain ⟨_, s₁, hs, h⟩ := runs_bind.1 h
  obtain ⟨b, s₂, hx, h⟩ := runs_bind.1 h
  obtain ⟨_, s₃, ht, h⟩ := runs_bind.1 h
  obtain ⟨rfl, rfl, hr⟩ := runs_pure.1 h
  cases hs
  cases ht
  exact ⟨s₂, ⟨hx, hr⟩, rfl⟩

theorem exists_of_inLoop (h : Runs (inLoop x) s a s') :
    ∃ s₁, Runs x { s with loops := s.loops + 1 } a s₁ ∧
      s' = { s₁ with loops := s₁.loops - 1 } := by
  obtain ⟨_, s₁, hs, h⟩ := runs_bind.1 h
  obtain ⟨b, s₂, hx, h⟩ := runs_bind.1 h
  obtain ⟨_, s₃, ht, h⟩ := runs_bind.1 h
  obtain ⟨rfl, rfl, hr⟩ := runs_pure.1 h
  cases hs
  cases ht
  exact ⟨s₂, ⟨hx, hr⟩, rfl⟩

theorem exists_of_inFunction {f : Enclosing} (h : Runs (inFunction f x) s a s') :
    ∃ s₁, Runs x { s with enclosing := some f, loops := 0 } a s₁ ∧
      s' = { s₁ with enclosing := s.enclosing, loops := s.loops } := by
  unfold inFunction at h
  rw [runs_get] at h
  obtain ⟨_, s₁, hs, h⟩ := runs_bind.1 h
  obtain ⟨b, s₂, hx, h⟩ := runs_bind.1 h
  obtain ⟨_, s₃, ht, h⟩ := runs_bind.1 h
  obtain ⟨rfl, rfl, hr⟩ := runs_pure.1 h
  cases hs
  cases ht
  exact ⟨s₂, ⟨hx, hr⟩, rfl⟩

/-- A declaration changes the innermost scope only. -/
theorem Env.inner_add {names : Names} {outer : List Names} (h : Γ.inner = names :: outer)
    (x : String) (e : Entry) :
    ∃ names', (Γ.add x e).inner = names' :: outer ∧ (Γ.add x e).root = Γ.root := by
  unfold Env.add
  rw [h]
  exact ⟨_, rfl, rfl⟩

theorem inner_of_stmtTyped {st : Stmt} (h : StmtTyped σ Γ k st Γ' k') {names : Names}
    {outer : List Names} (hΓ : Γ.inner = names :: outer) :
    ∃ names', Γ'.inner = names' :: outer ∧ Γ'.root = Γ.root := by
  cases h with
  | decl hw hi ht hx =>
    rw [hx.env]
    exact Env.inner_add hΓ _ _
  | _ => exact ⟨names, hΓ, rfl⟩

theorem inner_of_blockTyped {σ : Scene} : ∀ {ss : List Stmt} {Γ Γ' : Env} {k k' : Nat}
    {names : Names} {outer : List Names}, BlockTyped σ Γ k ss Γ' k' → Γ.inner = names :: outer →
    ∃ names', Γ'.inner = names' :: outer ∧ Γ'.root = Γ.root
  | [], _, _, _, _, _, _, h, hΓ => by
    cases h
    exact ⟨_, hΓ, rfl⟩
  | st :: ss, _, _, _, _, _, _, h, hΓ => by
    cases h with
    | cons hs hss =>
      obtain ⟨names₁, hΓ₁, hroot₁⟩ := inner_of_stmtTyped hs hΓ
      obtain ⟨names₂, hΓ₂, hroot₂⟩ := inner_of_blockTyped hss hΓ₁
      exact ⟨names₂, hΓ₂, hroot₂.trans hroot₁⟩

theorem inner_of_paramsTyped : ∀ {ps : List Param} {Γ Γ' : Env} {k k' : Nat}
    {names : Names} {outer : List Names}, ParamsTyped Γ k ps Γ' k' → Γ.inner = names :: outer →
    ∃ names', Γ'.inner = names' :: outer ∧ Γ'.root = Γ.root
  | [], _, _, _, _, _, _, h, hΓ => by
    cases h
    exact ⟨_, hΓ, rfl⟩
  | p :: ps, Γ, _, k, _, _, _, h, hΓ => by
    cases h with
    | cons hp hw hx hps =>
      obtain ⟨names₁, hΓ₁, hroot₁⟩ := Env.inner_add hΓ p.name.text
        (.var ⟨Γ.slot k p.name.text, p.ty, Γ.storage⟩)
      rw [← hx.env] at hΓ₁ hroot₁
      obtain ⟨names₂, hΓ₂, hroot₂⟩ := inner_of_paramsTyped hps hΓ₁
      exact ⟨names₂, hΓ₂, hroot₂.trans hroot₁⟩

theorem At.enter (h : At s σ Γ k) : At { s with scopes := s.scopes.enter } σ Γ.enter k :=
  ⟨h.shows.enter, h.returns, h.loop, h.shadows⟩

/-- Leaving a scope brings back what was in sight before it. -/
theorem At.exit {names : Names} (h : At s σ Γ' k)
    (hΓ : Γ'.inner = names :: Γ.inner) (hroot : Γ'.root = Γ.root) :
    At { s with scopes := s.scopes.exit } σ Γ k := by
  have hshows := h.shows.exit hΓ
  have he : ({ Γ' with inner := Γ.inner } : Env) = Γ := by rw [hroot]
  rw [he] at hshows
  exact ⟨hshows, h.returns, h.loop, h.shadows⟩

end

/-! ### Statements -/

/-- What comes of a statement. -/
structure StmtComes (s s' : State) (st : Stmt) : Prop where
  stays : Stays s s'
  typed : ∀ σ Γ k, At s σ Γ k → ∃ Γ' k', StmtTyped σ Γ k st Γ' k' ∧ At s' σ Γ' k'

/-- What comes of statements. -/
structure BlockComes (s s' : State) (ss : List Stmt) : Prop where
  stays : Stays s s'
  typed : ∀ σ Γ k, At s σ Γ k → ∃ Γ' k', BlockTyped σ Γ k ss Γ' k' ∧ At s' σ Γ' k'

/-- What comes of statements in a scope of their own. -/
structure ScopeComes (s s' : State) (ss : List Stmt) : Prop where
  stays : Stays s s'
  typed : ∀ σ Γ k, At s σ Γ k → ∃ Γ' k', BlockTyped σ Γ.enter k ss Γ' k' ∧ At s' σ Γ k'

section

variable {s s₁ s' : State}

/-- A statement that changes nothing that matters. -/
theorem StmtComes.of_keeps {st : Stmt} (hk : Keeps s s')
    (h : ∀ σ Γ k, At s σ Γ k → StmtTyped σ Γ k st Γ k) : StmtComes s s' st :=
  ⟨hk.stays, fun σ Γ k hs => ⟨Γ, k, h σ Γ k hs, hs.keeps hk⟩⟩

theorem scopeComes_of_inScope {body ss : List Stmt}
    (hbody : ∀ {s s' : State} {ss : List Stmt}, Runs (stmts body) s ss s' → BlockComes s s' ss)
    (h : Runs (inScope (stmts body)) s ss s') : ScopeComes s s' ss := by
  obtain ⟨s₁, hrun, rfl⟩ := exists_of_inScope h
  have hb := hbody hrun
  refine ⟨⟨hb.stays.reports, hb.stays.loops, hb.stays.enclosing⟩, fun σ Γ k hs => ?_⟩
  obtain ⟨Γ', k', ht, hs'⟩ := hb.typed σ Γ.enter k hs.enter
  obtain ⟨names, hΓ, hroot⟩ := inner_of_blockTyped ht rfl
  exact ⟨Γ', k', ht, hs'.exit hΓ hroot⟩

/-- What comes of statements in a loop. -/
structure LoopComes (s s' : State) (ss : List Stmt) : Prop where
  stays : Stays s s'
  typed : ∀ σ Γ k, At s σ Γ k → ∃ Γ' k', BlockTyped σ.inLoop Γ.enter k ss Γ' k' ∧ At s' σ Γ k'

theorem loopComes_of_inLoop {body ss : List Stmt}
    (hbody : ∀ {s s' : State} {ss : List Stmt}, Runs (stmts body) s ss s' → BlockComes s s' ss)
    (h : Runs (inLoop (inScope (stmts body))) s ss s') : LoopComes s s' ss := by
  obtain ⟨s₁, hrun, rfl⟩ := exists_of_inLoop h
  have hb := scopeComes_of_inScope hbody hrun
  have hloops : s₁.loops = s.loops + 1 := hb.stays.loops
  refine ⟨⟨hb.stays.reports, by simp [hloops], hb.stays.enclosing⟩, fun σ Γ k hs => ?_⟩
  obtain ⟨Γ', k', ht, hs'⟩ := hb.typed σ.inLoop Γ k ⟨hs.shows, hs.returns, by simp [Scene.inLoop],
    hs.shadows⟩
  refine ⟨Γ', k', ht, hs'.shows, ?_, ?_, hs'.shadows⟩
  · rw [← hs.returns, ← hb.stays.enclosing]
  · rw [hs.loop]
    simp [hloops]

theorem conditionTyped_of_condition {construct : Keyword} {e e' : Expr} (he : e.IsSource)
    (h : Runs (condition construct e) s e' s') :
    Comes s s' fun Γ => ∃ t, ConditionTyped Γ e' t := by
  obtain ⟨⟨e'', t⟩, s₁, he', h⟩ := runs_bind.1 h
  obtain ⟨_, s₂, hd, h⟩ := runs_bind.1 h
  obtain ⟨rfl, rfl, hr⟩ := runs_pure.1 h
  obtain ⟨hbool, rfl⟩ := runs_demand rfl ⟨hd, hr⟩
  have he := exprTyped_of_expr e he ⟨he', hr⟩
  exact ⟨he.keeps, fun Γ hΓ => ⟨t, he.typed Γ hΓ, hbool⟩⟩

theorem eq_of_declaredTy {x : String} {declared init t : Ty} {loc : Loc}
    (h : Runs (declaredTy x declared init loc) s t s') :
    declaredTy? declared init = some t ∧ s' = s := by
  unfold declaredTy at h
  unfold declaredTy?
  split at h
  · exact absurd h (not_runs_report_pure rfl)
  · rename_i hv
    split at h
    · rename_i ha
      obtain ⟨rfl, rfl, -⟩ := runs_pure.1 h
      exact ⟨if_pos ⟨hv, ha⟩, rfl⟩
    · exact absurd h (not_runs_report_pure rfl)

theorem printedTyped_of_printed : ∀ {es es' : List Expr} {s s' : State}, Expr.AreSource es →
    Runs (printed es) s es' s' → Comes s s' (PrintedTyped · es')
  | [], es', s, s', _, h => by
    obtain ⟨rfl, rfl, hr⟩ := runs_pure.1 h
    exact ⟨.refl hr, fun Γ _ => .nil⟩
  | e :: es, es', s, s', hs, h => by
    obtain ⟨⟨e', found⟩, s₁, he', h⟩ := runs_bind.1 h
    obtain ⟨_, s₂, hd, h⟩ := runs_bind.1 h
    obtain ⟨es'', s₃, hes', h⟩ := runs_bind.1 h
    obtain ⟨rfl, rfl, hq⟩ := runs_pure.1 h
    have hes := printedTyped_of_printed hs.2 ⟨hes', hq⟩
    obtain ⟨hvalue, rfl⟩ := runs_demand rfl ⟨hd, hes.keeps.reports⟩
    have he := exprTyped_of_expr e hs.1 ⟨he', hes.keeps.reports⟩
    exact ⟨he.keeps.trans hes.keeps,
      fun Γ hΓ => .cons (he.typed Γ hΓ) (by simpa using hvalue) (hes.after he.keeps Γ hΓ)⟩

theorem subscriptTyped_of_subscript {container t : Ty} {sub sub' : Subscript} {loc : Loc}
    (hs : sub.IsSource) (h : Runs (subscript container sub loc) s (sub', t) s') :
    Comes s s' fun Γ => SubscriptTyped Γ container sub' t := by
  obtain ⟨row, col⟩ := sub
  obtain ⟨hr, hc⟩ := hs
  obtain ⟨⟨row', index⟩, s₁, hr', h⟩ := runs_bind.1 h
  obtain ⟨_, s₂, hi, h⟩ := runs_bind.1 h
  cases col with
  | none =>
    obtain ⟨col', s₃, hc', h⟩ := runs_bind.1 h
    cases hc'
    obtain ⟨t', s₅, ht, h⟩ := runs_bind.1 h
    obtain ⟨⟨rfl, rfl⟩, rfl, hq⟩ := runs_pure.1 h
    obtain ⟨htype, rfl⟩ := eq_of_elementTy ⟨ht, hq⟩
    obtain ⟨hindex, rfl⟩ := runs_checkIndex ⟨hi, hq⟩
    have hr := exprTyped_of_expr row hr ⟨hr', hq⟩
    exact ⟨hr.keeps, fun Γ hΓ => .element (hr.typed Γ hΓ) hindex htype⟩
  | some col =>
    obtain ⟨col', s₃, hc', h⟩ := runs_bind.1 h
    obtain ⟨⟨col'', index'⟩, rfl, hcol⟩ : ∃ p, col' = some p ∧ (expr col).run s₂ = (p, s₃) := by
      have hsome : (optional (some col)).run s₂ =
          (some ((expr col).run s₂).1, ((expr col).run s₂).2) := rfl
      rw [hsome] at hc'
      cases hc'
      exact ⟨_, rfl, rfl⟩
    obtain ⟨_, s₄, hj, h⟩ := runs_bind.1 h
    obtain ⟨t', s₅, ht, h⟩ := runs_bind.1 h
    obtain ⟨⟨rfl, rfl⟩, rfl, hq⟩ := runs_pure.1 h
    obtain ⟨htype, rfl⟩ := eq_of_elementTy ⟨ht, hq⟩
    obtain ⟨hindex', rfl⟩ := runs_checkIndex ⟨hj, hq⟩
    have hc := exprTyped_of_expr col hc ⟨hcol, hq⟩
    obtain ⟨hindex, rfl⟩ := runs_checkIndex ⟨hi, hc.keeps.reports⟩
    have hr := exprTyped_of_expr row hr ⟨hr', hc.keeps.reports⟩
    exact ⟨hr.keeps.trans hc.keeps, fun Γ hΓ =>
      .entry (hr.typed Γ hΓ) hindex (hc.after hr.keeps Γ hΓ) hindex' htype⟩

/-- What comes of the target of an assignment. -/
theorem target_of_target {id : Nat} {symbol : Symbol} {loc : Loc} {t : Ty} :
    ∀ {sub sub' : Option Subscript}, (∀ s, sub = some s → s.IsSource) →
      Runs (target id symbol loc sub) s (sub', t) s' →
      Comes s s' fun Γ => (sub' = none ∧ t = symbol.ty) ∨
        ∃ s, sub' = some s ∧ SubscriptTyped Γ symbol.ty s t
  | none, sub', _, h => by
    obtain ⟨⟨rfl, rfl⟩, rfl, hr⟩ := runs_pure.1 h
    exact ⟨.refl hr, fun Γ _ => .inl ⟨rfl, rfl⟩⟩
  | some sub, sub', hs, h => by
    obtain ⟨_, s₁, hu, h⟩ := runs_bind.1 h
    obtain ⟨⟨sub'', t'⟩, s₂, hsub, h⟩ := runs_bind.1 h
    obtain ⟨⟨rfl, rfl⟩, rfl, hq⟩ := runs_pure.1 h
    have hsub := subscriptTyped_of_subscript (hs sub rfl) ⟨hsub, hq⟩
    have hk := keeps_used ⟨hu, hsub.keeps.reports⟩
    exact ⟨hk.trans hsub.keeps, fun Γ hΓ => .inr ⟨_, rfl, hsub.after hk Γ hΓ⟩⟩

/-- The parts of an assignment. -/
theorem isSource_of_assign {loc : Loc} {x : Name} {sub : Option Subscript} {value : Expr}
    (hs : (Stmt.assign loc x sub value).IsSource) :
    x.binding = none ∧ value.IsSource ∧ ∀ s, sub = some s → s.IsSource := by
  cases sub with
  | none => exact ⟨hs.1, hs.2, nofun⟩
  | some sub =>
    refine ⟨hs.1, hs.2.2, ?_⟩
    rintro _ ⟨⟩
    exact hs.2.1

theorem reports_of_looseSubscript {sub sub' : Option Subscript}
    (hs : ∀ s, sub = some s → s.IsSource) (h : Runs (looseSubscript sub) s sub' s') :
    Clean s.reports := by
  cases sub with
  | none => exact (runs_pure.1 h).2.2
  | some sub =>
    obtain ⟨row, col⟩ := sub
    obtain ⟨hr, hc⟩ := hs _ rfl
    obtain ⟨⟨row', _⟩, s₁, hrow, h⟩ := runs_bind.1 h
    obtain ⟨col', s₂, hcol, h⟩ := runs_bind.1 h
    obtain ⟨-, rfl, hq⟩ := runs_pure.1 h
    cases col with
    | none =>
      cases hcol
      exact (exprTyped_of_expr row hr ⟨hrow, hq⟩).keeps.reports
    | some col =>
      obtain ⟨⟨col'', _⟩, s₃, hcol, h⟩ := runs_bind.1
        (⟨hcol, hq⟩ : Runs (optional (some col)) _ _ _)
      obtain ⟨-, rfl, -⟩ := runs_pure.1 h
      have hc := exprTyped_of_expr col hc ⟨hcol, hq⟩
      exact (exprTyped_of_expr row hr ⟨hrow, hc.keeps.reports⟩).keeps.reports

theorem stmtComes_of_assignment {loc : Loc} {x : Name} {sub : Option Subscript} {value : Expr}
    {st : Stmt} (hs : (Stmt.assign loc x sub value).IsSource)
    (h : Runs (assignment loc x sub value) s st s') : StmtComes s s' st := by
  obtain ⟨hb, hvalue, hsub⟩ := isSource_of_assign hs
  obtain ⟨⟨value', found⟩, s₁, hv, h⟩ := runs_bind.1 h
  obtain ⟨⟨x', resolved⟩, s₂, hx, h⟩ := runs_bind.1 h
  cases resolved with
  | none =>
    obtain ⟨sub', s₃, hl, h⟩ := runs_bind.1 h
    obtain ⟨rfl, rfl, hq⟩ := runs_pure.1 h
    obtain ⟨_, _, hsome, -⟩ :=
      exists_of_resolve ⟨hx, reports_of_looseSubscript hsub ⟨hl, hq⟩⟩
    cases hsome
  | some p =>
    obtain ⟨id, symbol⟩ := p
    obtain ⟨⟨sub', t⟩, s₃, ht, h⟩ := runs_bind.1 h
    obtain ⟨_, s₄, hd, h⟩ := runs_bind.1 h
    obtain ⟨_, s₅, hm, h⟩ := runs_bind.1 h
    obtain ⟨rfl, rfl, hq⟩ := runs_pure.1 h
    have hki := keeps_initialized ⟨hm, hq⟩
    obtain ⟨haccepts, rfl⟩ := runs_demand rfl ⟨hd, hki.reports⟩
    have ht := target_of_target hsub ⟨ht, hki.reports⟩
    obtain ⟨id', symbol', hsome, rfl, hkx, hbound⟩ := exists_of_resolve ⟨hx, ht.keeps.reports⟩
    cases hsome
    have hv := exprTyped_of_expr value hvalue ⟨hv, hkx.reports⟩
    refine .of_keeps (((hv.keeps.trans hkx).trans ht.keeps).trans hki) fun σ Γ k hat => ?_
    have hbound : Bound Γ (x.bind symbol.binding) symbol.binding :=
      ⟨hbound Γ (hv.keeps.shows Γ hat.shows), Name.binding_bind hb _⟩
    rcases ht.after (hv.keeps.trans hkx) Γ hat.shows with ⟨rfl, rfl⟩ | ⟨sub, rfl, hsub⟩
    · exact .assign hbound (hv.typed Γ hat.shows) haccepts
    · exact .store hbound (hv.typed Γ hat.shows) hsub haccepts

theorem severity_of_returnError {f : Enclosing} {found : Option Ty} {cause : SemanticError}
    (h : returnError? f found = some cause) : cause.severity = .error := by
  unfold returnError? at h
  repeat' split at h
  all_goals cases h; try rfl

theorem returns_of_checkReturn {found : Option Ty} {loc : Loc} {u : Unit}
    (h : Runs (checkReturn found loc) s u s') :
    s' = s ∧ ∃ f, s.enclosing = some f ∧ returnError? f found = none := by
  unfold checkReturn at h
  rw [runs_get] at h
  split at h
  · exact absurd h (not_runs_report rfl)
  · rename_i f hf
    split at h
    · rename_i cause hcause
      exact absurd h (not_runs_report (severity_of_returnError hcause))
    · rename_i hnone
      obtain ⟨-, rfl, -⟩ := runs_pure.1 h
      exact ⟨rfl, f, hf, hnone⟩

theorem stmtComes_of_return {loc : Loc} {value : Option Expr} {st : Stmt} {top : Bool}
    (hs : (Stmt.return loc value).IsSource) (h : Runs (stmt top (.return loc value)) s st s') :
    StmtComes s s' st := by
  obtain ⟨value', s₁, hv, h⟩ := runs_bind.1 h
  obtain ⟨_, s₂, hc, h⟩ := runs_bind.1 h
  obtain ⟨rfl, rfl, hq⟩ := runs_pure.1 h
  obtain ⟨rfl, f, hf, hnone⟩ := returns_of_checkReturn ⟨hc, hq⟩
  cases value with
  | none =>
    cases hv
    refine .of_keeps (.refl hq) fun σ Γ k hat => .leave ?_
    have hr := hat.returns
    rw [hf] at hr
    rw [← hr]
    simp only [Option.map_none, returnError?] at hnone
    split at hnone
    · rename_i hvoid
      exact congrArg some hvoid
    · cases hnone
  | some e =>
    obtain ⟨⟨e', t⟩, s₃, he, hv⟩ := runs_bind.1 (⟨hv, hq⟩ : Runs (optional (some e)) _ _ _)
    obtain ⟨rfl, rfl, -⟩ := runs_pure.1 hv
    have he := exprTyped_of_expr e hs ⟨he, hq⟩
    refine .of_keeps he.keeps fun σ Γ k hat => ?_
    have hr := hat.returns
    rw [← he.keeps.enclosing, hf] at hr
    simp only [Option.map_some, returnError?] at hnone
    split at hnone
    · cases hnone
    · rename_i hvoid
      split at hnone
      · rename_i haccepts
        exact .return hr.symm hvoid (he.typed Γ hat.shows) haccepts
      · cases hnone

theorem stmtComes_of_input {loc : Loc} {x : Name} {st : Stmt} {top : Bool}
    (hs : x.binding = none) (h : Runs (stmt top (.input loc x)) s st s') : StmtComes s s' st := by
  obtain ⟨x'', s₁, hx, h⟩ := runs_bind.1 h
  obtain ⟨rfl, rfl, hq⟩ := runs_pure.1 h
  obtain ⟨⟨x', resolved⟩, s₂, hx, h⟩ := runs_bind.1 (⟨hx, hq⟩ : Runs (inputTarget x loc) _ _ _)
  cases resolved with
  | none =>
    obtain ⟨rfl, rfl, -⟩ := runs_pure.1 h
    obtain ⟨_, _, hsome, -⟩ := exists_of_resolve ⟨hx, hq⟩
    cases hsome
  | some p =>
    obtain ⟨id, symbol⟩ := p
    obtain ⟨_, s₃, hd, h⟩ := runs_bind.1 h
    obtain ⟨_, s₄, hm, h⟩ := runs_bind.1 h
    obtain ⟨rfl, rfl, -⟩ := runs_pure.1 h
    have hki := keeps_initialized ⟨hm, hq⟩
    obtain ⟨hreadable, rfl⟩ := runs_demand rfl ⟨hd, hki.reports⟩
    obtain ⟨id', symbol', hsome, rfl, hkx, hbound⟩ := exists_of_resolve ⟨hx, hki.reports⟩
    cases hsome
    exact .of_keeps (hkx.trans hki) fun σ Γ k hat =>
      .input ⟨hbound Γ hat.shows, Name.binding_bind hs _⟩ hreadable

theorem stmtComes_of_decl {loc : Loc} {x : Name} {declared : Ty} {init : Expr} {st : Stmt}
    {top : Bool} (hs : (Stmt.decl loc x declared init).IsSource)
    (h : Runs (stmt top (.decl loc x declared init)) s st s') : StmtComes s s' st := by
  obtain ⟨⟨init', found⟩, s₁, hi, h⟩ := runs_bind.1 h
  obtain ⟨t, s₂, ht, h⟩ := runs_bind.1 h
  obtain ⟨x', s₃, hx, h⟩ := runs_bind.1 h
  obtain ⟨rfl, rfl, hq⟩ := runs_pure.1 h
  obtain ⟨hbinding, hinit, hw, hplain⟩ := hs
  obtain ⟨hstays, hx⟩ := declares_of_declare hbinding hplain (.inl rfl) ⟨hx, hq⟩
  obtain ⟨htype, rfl⟩ := eq_of_declaredTy ⟨ht, hstays.reports⟩
  have hi := exprTyped_of_expr init hinit ⟨hi, hstays.reports⟩
  refine ⟨hi.keeps.stays.trans hstays, fun σ Γ k hat => ?_⟩
  obtain ⟨Γ', k', hd, hΓ', hk'⟩ := hx Γ (hi.keeps.shows Γ hat.shows)
  rw [hi.keeps.shadows, hat.shadows] at hd
  exact ⟨Γ', k', .decl hw (hi.typed Γ hat.shows) htype hd,
    hat.stays (hi.keeps.stays.trans hstays) hΓ' hk'⟩

theorem stmtComes_of_checkLoop {keyword : Keyword} {loc : Loc} {u : Unit} {st : Stmt}
    (hst : ∀ σ Γ k, σ.loop = true → StmtTyped σ Γ k st Γ k)
    (h : Runs (checkLoop keyword loc) s u s') : StmtComes s s' st := by
  unfold checkLoop at h
  rw [runs_get] at h
  have hq := h.2
  obtain ⟨hloop, rfl⟩ := runs_demand rfl h
  exact .of_keeps (.refl hq) fun σ Γ k hat => hst σ Γ k (by rw [hat.loop]; exact hloop)

/-- What a simple statement is does not change. -/
theorem isSimple_of_stmt {st st' : Stmt} {top : Bool} (hs : st.isSimple = true)
    (h : Runs (stmt top st) s st' s') : st'.isSimple = true ∧ st'.declares = st.declares := by
  cases st with
  | decl loc x declared init =>
    obtain ⟨⟨init', found⟩, s₁, hi, h⟩ := runs_bind.1 h
    obtain ⟨t, s₂, ht, h⟩ := runs_bind.1 h
    obtain ⟨x', s₃, hx, h⟩ := runs_bind.1 h
    obtain ⟨rfl, -⟩ := runs_pure.1 h
    exact ⟨rfl, rfl⟩
  | assign loc x sub value =>
    obtain ⟨⟨value', found⟩, s₁, hv, h⟩ := runs_bind.1 h
    obtain ⟨⟨x', resolved⟩, s₂, hx, h⟩ := runs_bind.1 h
    cases resolved with
    | none =>
      obtain ⟨sub', s₃, hl, h⟩ := runs_bind.1 h
      obtain ⟨rfl, -⟩ := runs_pure.1 h
      exact ⟨rfl, rfl⟩
    | some p =>
      obtain ⟨⟨sub', t⟩, s₃, ht, h⟩ := runs_bind.1 h
      obtain ⟨_, s₄, hd, h⟩ := runs_bind.1 h
      obtain ⟨_, s₅, hm, h⟩ := runs_bind.1 h
      obtain ⟨rfl, -⟩ := runs_pure.1 h
      exact ⟨rfl, rfl⟩
  | expr loc e =>
    obtain ⟨⟨e', t⟩, s₁, he, h⟩ := runs_bind.1 h
    obtain ⟨rfl, -⟩ := runs_pure.1 h
    exact ⟨rfl, rfl⟩
  | _ => cases hs

/-- A statement that declares nothing leaves in sight what was. -/
theorem eq_of_stmtTyped {σ : Scene} {Γ Γ' : Env} {k k' : Nat} {st : Stmt}
    (h : StmtTyped σ Γ k st Γ' k') (hd : st.declares = false) : Γ' = Γ := by
  cases h with
  | decl => cases hd
  | _ => rfl

end

mutual

theorem stmtComes_of_stmt (st : Stmt) : ∀ (top : Bool) {s s' : State} {st' : Stmt}, st.IsSource →
    (top = true → st.isFunction = false) → Runs (stmt top st) s st' s' → StmtComes s s' st' := by
  intro top s s' st' hs hf h
  cases st with
  | decl loc x declared init => exact stmtComes_of_decl hs h
  | assign loc x sub value => exact stmtComes_of_assignment hs h
  | function loc f returns params body =>
    cases top with
    | true => cases hf rfl
    | false => exact absurd h (not_runs_report_pure rfl)
  | cond loc e body orElse =>
    cases orElse with
    | none =>
      obtain ⟨e', s₁, he, h⟩ := runs_bind.1 h
      obtain ⟨body', s₂, hb, h⟩ := runs_bind.1 h
      obtain ⟨rfl, rfl, hq⟩ := runs_pure.1 h
      have hb := scopeComes_of_inScope (blockComes_of_stmts body hs.2) ⟨hb, hq⟩
      have he := conditionTyped_of_condition hs.1 ⟨he, hb.stays.reports⟩
      refine ⟨he.keeps.stays.trans hb.stays, fun σ Γ k hat => ?_⟩
      obtain ⟨t, ht⟩ := he.typed Γ hat.shows
      obtain ⟨Γ', k', hb, hat'⟩ := hb.typed σ Γ k (hat.keeps he.keeps)
      exact ⟨Γ, k', .cond ht hb, hat'⟩
    | some orElse =>
      obtain ⟨e', s₁, he, h⟩ := runs_bind.1 h
      obtain ⟨body', s₂, hb, h⟩ := runs_bind.1 h
      obtain ⟨orElse', s₃, ho, h⟩ := runs_bind.1 h
      obtain ⟨rfl, rfl, hq⟩ := runs_pure.1 h
      have ho := scopeComes_of_inScope (blockComes_of_stmts orElse hs.2.2) ⟨ho, hq⟩
      have hb := scopeComes_of_inScope (blockComes_of_stmts body hs.2.1) ⟨hb, ho.stays.reports⟩
      have he := conditionTyped_of_condition hs.1 ⟨he, hb.stays.reports⟩
      refine ⟨(he.keeps.stays.trans hb.stays).trans ho.stays, fun σ Γ k hat => ?_⟩
      obtain ⟨t, ht⟩ := he.typed Γ hat.shows
      obtain ⟨Γ₁, k₁, hb, hat₁⟩ := hb.typed σ Γ k (hat.keeps he.keeps)
      obtain ⟨Γ₂, k₂, ho, hat₂⟩ := ho.typed σ Γ k₁ hat₁
      exact ⟨Γ, k₂, .branch ht hb ho, hat₂⟩
  | «while» loc e body =>
    obtain ⟨e', s₁, he, h⟩ := runs_bind.1 h
    obtain ⟨body', s₂, hb, h⟩ := runs_bind.1 h
    obtain ⟨rfl, rfl, hq⟩ := runs_pure.1 h
    have hb := loopComes_of_inLoop (blockComes_of_stmts body hs.2) ⟨hb, hq⟩
    have he := conditionTyped_of_condition hs.1 ⟨he, hb.stays.reports⟩
    refine ⟨he.keeps.stays.trans hb.stays, fun σ Γ k hat => ?_⟩
    obtain ⟨t, ht⟩ := he.typed Γ hat.shows
    obtain ⟨Γ', k', hb, hat'⟩ := hb.typed σ Γ k (hat.keeps he.keeps)
    exact ⟨Γ, k', .while ht hb, hat'⟩
  | «repeat» loc count body =>
    obtain ⟨⟨count', found⟩, s₁, hc, h⟩ := runs_bind.1 h
    obtain ⟨_, s₂, hd, h⟩ := runs_bind.1 h
    obtain ⟨body', s₃, hb, h⟩ := runs_bind.1 h
    obtain ⟨rfl, rfl, hq⟩ := runs_pure.1 h
    have hb := loopComes_of_inLoop (blockComes_of_stmts body hs.2) ⟨hb, hq⟩
    obtain ⟨hint, rfl⟩ := runs_demand rfl ⟨hd, hb.stays.reports⟩
    have hc := exprTyped_of_expr count hs.1 ⟨hc, hb.stays.reports⟩
    refine ⟨hc.keeps.stays.trans hb.stays, fun σ Γ k hat => ?_⟩
    obtain ⟨Γ', k', hb, hat'⟩ := hb.typed σ Γ k (hat.keeps hc.keeps)
    exact ⟨Γ, k', .repeat (hc.typed Γ hat.shows) hint hb, hat'⟩
  | «for» loc init e update body =>
    obtain ⟨⟨hsimple, hsi⟩, hse, ⟨hsimple', hnd, hsu⟩, hsb⟩ := hs
    obtain ⟨s₁, hrun, rfl⟩ := exists_of_inScope h
    obtain ⟨init', s₂, hi, h⟩ := runs_bind.1 hrun
    obtain ⟨e', s₃, he, h⟩ := runs_bind.1 h
    obtain ⟨update', s₄, hu, h⟩ := runs_bind.1 h
    obtain ⟨body', s₅, hb, h⟩ := runs_bind.1 h
    obtain ⟨rfl, rfl, hq⟩ := runs_pure.1 h
    have hb := loopComes_of_inLoop (blockComes_of_stmts body hsb) ⟨hb, hq⟩
    have hup := isSimple_of_stmt hsimple' ⟨hu, hb.stays.reports⟩
    have hu := stmtComes_of_stmt update false hsu nofun ⟨hu, hb.stays.reports⟩
    have he := conditionTyped_of_condition hse ⟨he, hu.stays.reports⟩
    have hip := isSimple_of_stmt hsimple ⟨hi, he.keeps.reports⟩
    have hi := stmtComes_of_stmt init false hsi nofun ⟨hi, he.keeps.reports⟩
    have hstays := ((hi.stays.trans he.keeps.stays).trans hu.stays).trans hb.stays
    refine ⟨⟨hstays.reports, hstays.loops, hstays.enclosing⟩, fun σ Γ k hat => ?_⟩
    obtain ⟨Γ₁, k₁, hi, hat₁⟩ := hi.typed σ Γ.enter k hat.enter
    obtain ⟨t, ht⟩ := he.typed Γ₁ hat₁.shows
    obtain ⟨Γ₂, k₂, hu, hat₂⟩ := hu.typed σ Γ₁ k₁ (hat₁.keeps he.keeps)
    obtain rfl := eq_of_stmtTyped hu (hup.2.trans hnd)
    obtain ⟨Γ₃, k₃, hb, hat₃⟩ := hb.typed σ Γ₂ k₂ hat₂
    obtain ⟨names, hΓ, hroot⟩ := inner_of_stmtTyped hi rfl
    exact ⟨Γ, k₃, .for hip.1 hi ht hup.1 (hup.2.trans hnd) hu hb, hat₃.exit hΓ hroot⟩
  | «break» loc =>
    obtain ⟨_, s₁, hc, h⟩ := runs_bind.1 h
    obtain ⟨rfl, rfl, hq⟩ := runs_pure.1 h
    exact stmtComes_of_checkLoop (fun _ _ _ hl => .break hl) ⟨hc, hq⟩
  | «continue» loc =>
    obtain ⟨_, s₁, hc, h⟩ := runs_bind.1 h
    obtain ⟨rfl, rfl, hq⟩ := runs_pure.1 h
    exact stmtComes_of_checkLoop (fun _ _ _ hl => .continue hl) ⟨hc, hq⟩
  | «return» loc value => exact stmtComes_of_return hs h
  | print loc values =>
    obtain ⟨values', s₁, hv, h⟩ := runs_bind.1 h
    obtain ⟨rfl, rfl, hq⟩ := runs_pure.1 h
    have hv := printedTyped_of_printed hs.1 ⟨hv, hq⟩
    exact .of_keeps hv.keeps fun σ Γ k hat => .print (hv.typed Γ hat.shows)
  | input loc x => exact stmtComes_of_input hs h
  | expr loc e =>
    obtain ⟨⟨e', t⟩, s₁, he, h⟩ := runs_bind.1 h
    obtain ⟨rfl, rfl, hq⟩ := runs_pure.1 h
    have halone := standsAlone_of_expr ⟨he, hq⟩
    have he := exprTyped_of_expr e hs.2 ⟨he, hq⟩
    have halone := halone.trans (Expr.standsAlone_of_isHeaded hs.1)
    exact .of_keeps he.keeps fun σ Γ k hat => .expr halone (he.typed Γ hat.shows)
termination_by structural st

theorem blockComes_of_stmts (ss : List Stmt) : Stmt.AreSource ss → ∀ {s s' : State}
    {ss' : List Stmt}, Runs (stmts ss) s ss' s' → BlockComes s s' ss' := by
  intro hs s s' ss' h
  cases ss with
  | nil =>
    obtain ⟨rfl, rfl, hr⟩ := runs_pure.1 h
    exact ⟨⟨hr, rfl, rfl⟩, fun σ Γ k hat => ⟨Γ, k, .nil, hat⟩⟩
  | cons st ss =>
    obtain ⟨st', s₁, hst, h⟩ := runs_bind.1 h
    obtain ⟨ss', s₂, hss, h⟩ := runs_bind.1 h
    obtain ⟨rfl, rfl, hq⟩ := runs_pure.1 h
    have hss := blockComes_of_stmts ss hs.2 ⟨hss, hq⟩
    have hst := stmtComes_of_stmt st false hs.1 nofun ⟨hst, hss.stays.reports⟩
    refine ⟨hst.stays.trans hss.stays, fun σ Γ k hat => ?_⟩
    obtain ⟨Γ₁, k₁, hst, hat₁⟩ := hst.typed σ Γ k hat
    obtain ⟨Γ₂, k₂, hss, hat₂⟩ := hss.typed σ Γ₁ k₁ hat₁
    exact ⟨Γ₂, k₂, .cons hst hss, hat₂⟩
termination_by structural ss

end

/-! ### Programs -/

section

variable {s s' : State}

theorem tys_of_parameters : ∀ {ps ps' : List Param} {s s' : State},
    Runs (parameters ps) s ps' s' → ps'.map (·.ty) = ps.map (·.ty)
  | [], _, _, _, h => by
    obtain ⟨rfl, -⟩ := runs_pure.1 h
    rfl
  | p :: ps, _, s, s', h => by
    obtain ⟨p', s₁, hp, h⟩ := runs_bind.1 h
    obtain ⟨ps', s₂, hps, h⟩ := runs_bind.1 h
    obtain ⟨rfl, rfl, hr⟩ := runs_pure.1 h
    have hty : p'.ty = p.ty := by
      have he : p' = ((parameter p).run s).1 := by rw [hp]
      rw [he, parameter]
      split <;> rfl
    rw [List.map_cons, List.map_cons, hty, tys_of_parameters ⟨hps, hr⟩]

/-- What is in sight after the functions of a program are declared. -/
theorem shows_of_hoist : ∀ {p : Program} {s s' : State} {u : Unit} {root : Names},
    Runs (hoist p) s u s' →
    Stays s s' ∧ s'.shadows = s.shadows ∧ (s.scopes.Shows ⟨[], root⟩ → (root.map (·.1)).Nodup →
      s'.scopes.Shows ⟨[], functionEntries p ++ root⟩ ∧
        ((functionEntries p ++ root).map (·.1)).Nodup)
  | [], _, _, _, _, h => by
    obtain ⟨-, rfl, hr⟩ := runs_pure.1 h
    exact ⟨⟨hr, rfl, rfl⟩, rfl, fun hs hn => ⟨hs, hn⟩⟩
  | st :: rest, s, s', u, root, h => by
    cases hf : st.isFunction with
    | false =>
      have h' : Runs (hoist rest) s u s' := by
        cases st <;> first | exact h | cases hf
      obtain ⟨hstays, hk, hrest⟩ := @shows_of_hoist rest s s' u root h'
      refine ⟨hstays, hk, fun hs hn => ?_⟩
      rw [functionEntries_cons, functionEntries_of_isFunction hf, List.append_nil]
      exact hrest hs hn
    | true =>
      cases st with
      | function loc f returns params body =>
        unfold hoist at h
        rw [runs_get] at h
        dsimp only at h
        split at h
        · rename_i id scopes hd
          obtain ⟨_, s₁, hm, h⟩ := runs_bind.1 h
          cases hm
          obtain ⟨hstays, hk, hrest⟩ := @shows_of_hoist _ _ _ _
            ((f, .function (params.map (·.ty)) returns) :: root) h
          refine ⟨⟨hstays.reports, hstays.loops, hstays.enclosing⟩, hk, fun hs hn => ?_⟩
          obtain ⟨hfresh, hshows⟩ := hs.declare hd
          rw [functionEntries_cons, List.append_assoc]
          refine hrest hshows (List.nodup_cons.2 ⟨fun hmem => ?_, hn⟩)
          obtain ⟨q, hq, hname⟩ := List.mem_map.1 hmem
          have hne := List.lookup_eq_none_iff.1 hfresh q hq
          simp [hname] at hne
        · obtain ⟨_, s₁, hm, h⟩ := runs_bind.1 h
          obtain ⟨hstays, -⟩ := @shows_of_hoist _ _ _ _ root h
          exact absurd ⟨hm, hstays.reports⟩ (not_runs_report rfl)
      | _ => cases hf

/-- What comes of a function. -/
theorem typed_of_function {loc : Loc} {f : String} {returns : Ty} {params : List Param}
    {body : List Stmt} {st : Stmt} (hs : (Stmt.function loc f returns params body).IsSource)
    (h : Runs (stmt true (.function loc f returns params body)) s st s') :
    Stays s s' ∧ ∃ params' body', st = .function loc f returns params' body' ∧
      params'.map (·.ty) = params.map (·.ty) ∧ ∀ σ Γ k, At s σ Γ k → ∃ Γ₁ Γ₂ k₁ k₂,
        ParamsTyped Γ.enter k params' Γ₁ k₁ ∧
        BlockTyped ⟨some returns, false⟩ Γ₁ k₁ body' Γ₂ k₂ ∧ At s' σ Γ k₂ := by
  obtain ⟨s₁, hrun, rfl⟩ := exists_of_inScope h
  obtain ⟨params', s₂, hp, h⟩ := runs_bind.1 hrun
  obtain ⟨body', s₃, hb, h⟩ := runs_bind.1 h
  obtain ⟨rfl, rfl, hq⟩ := runs_pure.1 h
  obtain ⟨s₄, hbody, rfl⟩ := exists_of_inFunction ⟨hb, hq⟩
  have hb := blockComes_of_stmts body hs.2.1 hbody
  have hp : Runs (parameters params) { s with scopes := s.scopes.enter } params' s₂ :=
    ⟨hp, hb.stays.reports⟩
  obtain ⟨hstays, htyped⟩ := paramsTyped_of_parameters hs.1 hp
  refine ⟨⟨hstays.reports, hstays.loops, hstays.enclosing⟩, params', body', rfl,
    tys_of_parameters hp, fun σ Γ k hat => ?_⟩
  obtain ⟨Γ₁, k₁, hpt, hΓ₁, hk₁⟩ := htyped Γ.enter hat.shows.enter
  obtain ⟨Γ₂, k₂, hbt, hat₂⟩ := hb.typed ⟨some returns, false⟩ Γ₁ k₁ ⟨hΓ₁, rfl, rfl, hk₁⟩
  obtain ⟨names₁, hin₁, hroot₁⟩ := inner_of_paramsTyped hpt rfl
  obtain ⟨names₂, hin₂, hroot₂⟩ := inner_of_blockTyped hbt hin₁
  rw [show ({ s with scopes := s.scopes.enter } : State).shadows = k from hat.shadows] at hpt
  refine ⟨Γ₁, Γ₂, k₁, k₂, hpt, hbt, ?_⟩
  have hat₃ : At { s₄ with enclosing := s₂.enclosing, loops := s₂.loops } σ Γ₂ k₂ := by
    refine ⟨hat₂.shows, ?_, ?_, hat₂.shadows⟩
    · rw [← hat.returns]
      exact congrArg _ hstays.enclosing
    · rw [hat.loop]
      exact congrArg (fun n => decide (n ≠ 0)) hstays.loops.symm
  exact hat₃.exit hin₂ (hroot₂.trans hroot₁)

theorem typed_of_topLevel : ∀ {p p' : Program} {s s' : State}, Stmt.AreSource p →
    Runs (topLevel p) s p' s' →
    Stays s s' ∧ ∀ Γ k, At s ⟨none, false⟩ Γ k → functionEntries p' = functionEntries p ∧
      ∃ Γ' k', TopTyped Γ k p' Γ' k'
  | [], _, _, _, _, h => by
    obtain ⟨rfl, rfl, hr⟩ := runs_pure.1 h
    exact ⟨⟨hr, rfl, rfl⟩, fun Γ k _ => ⟨rfl, Γ, k, .nil⟩⟩
  | st :: rest, p', s, s', hs, h => by
    obtain ⟨st', s₁, hst, h⟩ := runs_bind.1 h
    obtain ⟨rest', s₂, hrest, h⟩ := runs_bind.1 h
    obtain ⟨rfl, rfl, hq⟩ := runs_pure.1 h
    obtain ⟨hstays, hrest⟩ := typed_of_topLevel hs.2 ⟨hrest, hq⟩
    have hst : Runs (stmt true st) s st' s₁ := ⟨hst, hstays.reports⟩
    cases hf : st.isFunction with
    | false =>
      have hc := stmtComes_of_stmt st true hs.1 (fun _ => hf) hst
      refine ⟨hc.stays.trans hstays, fun Γ k hat => ?_⟩
      obtain ⟨Γ₁, k₁, ht, hat₁⟩ := hc.typed _ Γ k hat
      obtain ⟨hentries, Γ', k', hrest⟩ := hrest Γ₁ k₁ hat₁
      refine ⟨?_, Γ', k', .cons ht hrest⟩
      rw [functionEntries_cons, functionEntries_cons st, hentries,
        functionEntries_of_isFunction (isFunction_of_stmtTyped ht),
        functionEntries_of_isFunction hf]
    | true =>
      cases st with
      | function loc f returns params body =>
        obtain ⟨hs₁, params', body', rfl, htys, hc⟩ := typed_of_function hs.1 hst
        refine ⟨hs₁.trans hstays, fun Γ k hat => ?_⟩
        obtain ⟨Γ₁, Γ₂, k₁, k₂, hp, hb, hat₁⟩ := hc _ Γ k hat
        obtain ⟨hentries, Γ', k', hrest⟩ := hrest Γ k₂ hat₁
        refine ⟨?_, Γ', k', .function hs.1.2.2 hp hb hrest⟩
        rw [functionEntries_cons, functionEntries_cons (.function loc f returns params body),
          hentries]
        simp only [functionEntries, List.filterMap_cons, htys]
      | _ => cases hf

end

end Analysis

open Analysis

/-- The steps of an analysis that reports no error. -/
theorem Program.exists_of_analyze {p : Program} {settings : SuggestionSettings}
    (h : Clean (p.analyze settings).reports) : ∃ u s s',
      (hoist p).run (State.start settings) = (u, s) ∧
      Runs (topLevel p) s (p.analyze settings).program s' := by
  obtain ⟨u, s, hhoist⟩ : ∃ u s, (hoist p).run (State.start settings) = (u, s) := ⟨_, _, rfl⟩
  obtain ⟨p', s', htop⟩ : ∃ p' s', (topLevel p).run s = (p', s') := ⟨_, _, rfl⟩
  have hrun : (do hoist p; topLevel p : Analyze Program).run (State.start settings) = (p', s') := by
    rw [StateT.run_bind, hhoist]
    exact htop
  have hprogram : (p.analyze settings).program = p' := by
    rw [analyze, hrun]
  have hreports : Clean s'.reports := by
    rw [analyze, hrun] at h
    exact fun r hr => h r (List.mem_append_left _ hr)
  exact ⟨u, s, s', hhoist, hprogram ▸ ⟨htop, hreports⟩⟩

/-- Analysis that reports no error gives a program that follows the rules. -/
theorem Program.typed_of_analyze {p : Program} {settings : SuggestionSettings}
    (hs : Stmt.AreSource p) (h : Clean (p.analyze settings).reports) :
    ProgramTyped (p.analyze settings).program := by
  obtain ⟨_, s₁, s₂, hhoist, htop⟩ := p.exists_of_analyze h
  obtain ⟨hstays, htyped⟩ := typed_of_topLevel hs htop
  obtain ⟨hstays₁, hk, hshows⟩ := @shows_of_hoist _ _ _ _ [] ⟨hhoist, hstays.reports⟩
  obtain ⟨hshows, hdistinct⟩ := hshows ⟨.nil, .nil⟩ List.nodup_nil
  rw [List.append_nil] at hshows hdistinct
  have hat : At s₁ ⟨none, false⟩ ⟨[], functionEntries p⟩ 0 := by
    refine ⟨hshows, ?_, ?_, hk⟩
    · rw [hstays₁.enclosing]
      rfl
    · rw [hstays₁.loops]
      rfl
  obtain ⟨hentries, Γ, k, htop⟩ := htyped _ 0 hat
  exact ⟨by rw [hentries]; exact hdistinct, Γ, k, by rw [hentries]; exact htop⟩

end NumericScript
