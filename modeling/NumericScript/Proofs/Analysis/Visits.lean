import NumericScript.Proofs.Analysis.Sees

/-! # Live variables share no place

What analysis makes of a program of any form, if its names are new and it reports no error.  At
every point of it the variables in the open scopes are all different, those that others hide among
them, and every name is bound to the innermost declaration in sight.

* `Visits`: what holds of the points between two places of a program.
* `Moves`: steps of analysis, with what is in sight before and behind them.
* `moves_stmt`, `moves_stmts`, `moves_topLevel`: the parts of a program.
* `Program.disjoint_of_analyze`: programs. -/

namespace NumericScript

open Analysis

/-- A point where all is as it has to be. -/
structure Site.Sound (p : Site) : Prop where
  env : ∃ k, p.env.Sound k
  refs : p.env.Binds p.refs

namespace Analysis

variable {Γ Γ₁ Γ' : Env} {k k₁ k' : Nat} {sites sites' : List Site}

/-- On the way from `Γ` to `Γ'` there are such points.  If all is as it has to be at the beginning,
it is so at these points and at the end. -/
structure Visits (Γ : Env) (k : Nat) (sites : List Site) (Γ' : Env) (k' : Nat) : Prop where
  le : k ≤ k'
  sound : Γ.Sound k → Γ'.Sound k'
  sites : Γ.Sound k → ∀ p ∈ sites, p.Sound

namespace Visits

theorem nil : Visits Γ k [] Γ k := ⟨Nat.le_refl _, id, fun _ => nofun⟩

theorem append (h : Visits Γ k sites Γ₁ k₁) (h' : Visits Γ₁ k₁ sites' Γ' k') :
    Visits Γ k (sites ++ sites') Γ' k' :=
  ⟨Nat.le_trans h.le h'.le, fun hΓ => h'.sound (h.sound hΓ),
    fun hΓ => List.forall_mem_append.2 ⟨h.sites hΓ, h'.sites (h.sound hΓ)⟩⟩

/-- Names that stand where analysis is. -/
theorem here {names : List Name} (h : Γ.Binds names) : Visits Γ k [⟨Γ, names⟩] Γ k :=
  ⟨Nat.le_refl _, id, fun hΓ => List.forall_mem_singleton.2 ⟨⟨k, hΓ⟩, h⟩⟩

/-- What is in a scope of its own. -/
theorem scope (h : Visits Γ.enter k sites Γ₁ k₁) : Visits Γ k sites Γ k₁ :=
  ⟨h.le, fun hΓ => hΓ.mono h.le, fun hΓ => h.sites hΓ.enter⟩

/-- A variable is declared. -/
theorem declare {x : Name} {t : Ty} (h : Declares Γ k x t Γ' k') :
    Visits Γ k [⟨Γ.declare x, [x]⟩] (Γ.declare x) k' := by
  obtain rfl := h.env_eq
  refine ⟨h.shadows_le, fun hΓ => h.sound hΓ, fun hΓ => List.forall_mem_singleton.2 ?_⟩
  exact ⟨⟨k', h.sound hΓ⟩, List.forall_mem_singleton.2 ⟨_, h.bound⟩⟩

end Visits

/-! ### Innermost scopes -/

/-- At most the innermost scope is another one. -/
def Env.Widens (Γ Γ' : Env) : Prop := ∀ names outer, Γ.inner = names :: outer →
  ∃ names', Γ'.inner = names' :: outer ∧ Γ'.root = Γ.root

namespace Env.Widens

theorem refl (Γ : Env) : Γ.Widens Γ := fun names _ hΓ => ⟨names, hΓ, rfl⟩

theorem trans (h : Γ.Widens Γ₁) (h' : Γ₁.Widens Γ') : Γ.Widens Γ' := by
  intro names outer hΓ
  obtain ⟨names₁, hΓ₁, hroot₁⟩ := h names outer hΓ
  obtain ⟨names', hΓ', hroot'⟩ := h' names₁ outer hΓ₁
  exact ⟨names', hΓ', hroot'.trans hroot₁⟩

theorem declare (Γ : Env) (x : Name) : Γ.Widens (Γ.declare x) := by
  intro names outer hΓ
  unfold Env.declare
  split
  · exact Env.inner_add hΓ _ _
  · exact ⟨names, hΓ, rfl⟩

theorem behind (Γ : Env) (st : Stmt) : Γ.Widens (Γ.behind st) := by
  cases st with
  | decl loc x declared init => exact declare Γ x
  | _ => exact refl Γ

end Env.Widens

/-! ### Steps from place to place -/

/-- A step of analysis.  The property `P` tells what is in sight and how many variables have hidden
another one, before the step and behind it. -/
def Moves {α : Type} (x : Analyze α) (P : Env → Nat → α → Env → Nat → Prop) : Prop :=
  ∀ s s' a, Runs x s a s' → Clean s.reports ∧ ∀ Γ, s.scopes.Shows Γ →
    ∃ Γ', s'.scopes.Shows Γ' ∧ P Γ s.shadows a Γ' s'.shadows

namespace Moves

variable {α β : Type} {x : Analyze α} {a : α} {P : Env → Nat → α → Env → Nat → Prop}
  {Q : Env → Nat → β → Env → Nat → Prop}

theorem pure (h : ∀ Γ k, P Γ k a Γ k) : Moves (Pure.pure a) P := by
  intro s s' b hrun
  obtain ⟨rfl, rfl, hr⟩ := runs_pure.1 hrun
  exact ⟨hr, fun Γ hΓ => ⟨Γ, hΓ, h Γ s'.shadows⟩⟩

theorem bind {f : α → Analyze β} (hx : Moves x P)
    (hf : ∀ a, Moves (f a) fun Γ₁ k₁ b Γ' k' => ∀ Γ k, P Γ k a Γ₁ k₁ → Q Γ k b Γ' k') :
    Moves (x >>= f) Q := by
  intro s s' b hrun
  obtain ⟨a, s₁, ha, hrun⟩ := runs_bind.1 hrun
  obtain ⟨hr, hQ⟩ := hf a _ _ _ hrun
  obtain ⟨hr, hP⟩ := hx _ _ _ ⟨ha, hr⟩
  refine ⟨hr, fun Γ hΓ => ?_⟩
  obtain ⟨Γ₁, hΓ₁, hP⟩ := hP Γ hΓ
  obtain ⟨Γ', hΓ', hQ⟩ := hQ Γ₁ hΓ₁
  exact ⟨Γ', hΓ', hQ Γ s.shadows hP⟩

theorem imp {P' : Env → Nat → α → Env → Nat → Prop} (hx : Moves x P)
    (h : ∀ {Γ k a Γ' k'}, P Γ k a Γ' k' → P' Γ k a Γ' k') : Moves x P' := by
  intro s s' a hrun
  obtain ⟨hr, hP⟩ := hx _ _ _ hrun
  refine ⟨hr, fun Γ hΓ => ?_⟩
  obtain ⟨Γ', hΓ', hP⟩ := hP Γ hΓ
  exact ⟨Γ', hΓ', h hP⟩

/-- A step before which names were looked up. -/
theorem after {f : α → Analyze β} {R : Env → α → Prop} (hx : Sees x R)
    (hf : ∀ a, Moves (f a) fun Γ k b Γ' k' => R Γ a → Q Γ k b Γ' k') : Moves (x >>= f) Q := by
  intro s s' b hrun
  obtain ⟨a, s₁, ha, hrun⟩ := runs_bind.1 hrun
  obtain ⟨hr, hQ⟩ := hf a _ _ _ hrun
  obtain ⟨hk, hR⟩ := hx _ _ _ ⟨ha, hr⟩
  refine ⟨hk.reports, fun Γ hΓ => ?_⟩
  obtain ⟨Γ', hΓ', hQ⟩ := hQ Γ (hk.shows Γ hΓ)
  exact ⟨Γ', hΓ', hk.shadows ▸ hQ (hR Γ hΓ)⟩

theorem inLoop (hx : Moves x P) : Moves (inLoop x) P := by
  intro s s' a hrun
  obtain ⟨s₁, h, rfl⟩ := exists_of_inLoop hrun
  obtain ⟨hr, hP⟩ := hx _ _ _ h
  exact ⟨hr, hP⟩

theorem inFunction {f : Enclosing} (hx : Moves x P) : Moves (inFunction f x) P := by
  intro s s' a hrun
  obtain ⟨s₁, h, rfl⟩ := exists_of_inFunction hrun
  obtain ⟨hr, hP⟩ := hx _ _ _ h
  exact ⟨hr, hP⟩

/-- Behind a scope the same is in sight as before it. -/
theorem inScope (hx : Moves x fun Γ k a Γ' k' => Γ.Widens Γ' ∧ P Γ k a Γ' k') :
    Moves (inScope x) fun Γ k a Γ' k' => Γ' = Γ ∧ ∃ Γ₁, P Γ.enter k a Γ₁ k' := by
  intro s s' a hrun
  obtain ⟨s₁, h, rfl⟩ := exists_of_inScope hrun
  obtain ⟨hr, hP⟩ := hx _ _ _ h
  refine ⟨hr, fun Γ hΓ => ?_⟩
  obtain ⟨Γ₁, hΓ₁, hwidens, hP⟩ := hP Γ.enter hΓ.enter
  obtain ⟨names, hinner, hroot⟩ := hwidens [] Γ.inner rfl
  have hexit := hΓ₁.exit hinner
  have he : ({ Γ₁ with inner := Γ.inner } : Env) = Γ := by rw [hroot]; rfl
  rw [he] at hexit
  exact ⟨Γ, hexit, rfl, Γ₁, hP⟩

end Moves

/-! ### Declarations -/

/-- Names can stand for new variables. -/
def New (xs : List Name) : Prop := ∀ x ∈ xs, x.binding = none ∧ x.IsPlain

theorem New.unbound {xs : List Name} (h : New xs) : Unbound xs := fun x hx => (h x hx).1

theorem New.append {xs ys : List Name} (h : New (xs ++ ys)) : New xs ∧ New ys :=
  List.forall_mem_append.1 h

theorem New.cons {x : Name} {xs : List Name} (h : New (x :: xs)) : New [x] ∧ New xs :=
  append h

theorem text_of_declare {x x' : Name} {ty : Ty} {kind : SymbolKind} {loc : Loc} {s s' : State}
    (h : Runs (declare x ty kind loc) s x' s') : x'.text = x.text := by
  unfold declare at h
  rw [runs_get] at h
  obtain ⟨slot, s₁, -, h⟩ := runs_bind.1 h
  rw [runs_get] at h
  dsimp only at h
  split at h
  all_goals
    obtain ⟨_, s₂, -, h⟩ := runs_bind.1 h
    obtain ⟨rfl, -⟩ := runs_pure.1 h
    rfl

/-- What comes of the declaration of a name. -/
structure NameComes (x : Name) (Γ : Env) (k : Nat) (x' : Name) (Γ' : Env) (k' : Nat) : Prop where
  env : Γ' = Γ.declare x'
  text : x'.text = x.text
  visits : Visits Γ k [⟨Γ.declare x', [x']⟩] Γ' k'

theorem moves_declare {x : Name} (hx : New [x]) (ty : Ty) {kind : SymbolKind}
    (hkind : kind = .variable ∨ kind = .parameter) (loc : Loc) :
    Moves (declare x ty kind loc) (NameComes x) := by
  obtain ⟨hbinding, hplain⟩ := List.forall_mem_singleton.1 hx
  intro s s' x' hrun
  obtain ⟨hstays, hd⟩ := declares_of_declare hbinding hplain hkind hrun
  refine ⟨hstays.reports, fun Γ hΓ => ?_⟩
  obtain ⟨Γ', _, hd, hΓ', rfl⟩ := hd Γ hΓ
  exact ⟨Γ', hΓ', hd.env_eq, text_of_declare hrun, hd.env_eq ▸ .declare hd⟩

/-- What comes of parameters. -/
structure ParamsCome (ps : List Param) (Γ : Env) (k : Nat) (ps' : List Param) (Γ' : Env)
    (k' : Nat) : Prop where
  env : Γ' = ps'.foldl (fun Γ p => Γ.declare p.name) Γ
  texts : (ps'.map (·.name)).map (·.text) = (ps.map (·.name)).map (·.text)
  tys : ps'.map (·.ty) = ps.map (·.ty)
  widens : Γ.Widens Γ'
  visits : Visits Γ k (Param.sites Γ ps') Γ' k'

theorem moves_parameter {p : Param} (hp : New [p.name]) : Moves (parameter p)
    fun Γ k p' Γ' k' => p'.ty = p.ty ∧ NameComes p.name Γ k p'.name Γ' k' := by
  unfold parameter
  split
  · have hreport : Sees (report (.voidVariable p.name.text) p.loc) fun _ _ => True :=
      .of_eq fun _ _ _ h => absurd h (not_runs_report rfl)
    exact .after hreport fun _ => .after (R := fun _ _ => True) (.pure fun _ => trivial) fun _ =>
      (moves_declare hp _ (.inr rfl) _).bind fun _ => .pure fun _ _ _ _ hx _ _ => ⟨rfl, hx⟩
  · exact .after (R := fun _ _ => True) (.pure fun _ => trivial) fun _ =>
      (moves_declare hp _ (.inr rfl) _).bind fun _ => .pure fun _ _ _ _ hx _ => ⟨rfl, hx⟩

theorem moves_parameters : ∀ (ps : List Param), New (ps.map (·.name)) →
    Moves (parameters ps) (ParamsCome ps)
  | [], _ => .pure fun Γ k => ⟨rfl, rfl, rfl, .refl Γ, .nil⟩
  | p :: ps, h => by
    refine (moves_parameter (New.cons h).1).bind fun p' =>
      (moves_parameters ps (New.cons h).2).bind fun ps' =>
        .pure fun Γ' k' Γ₁ k₁ hps Γ k hp => ?_
    obtain ⟨hty, henv, htext, hvisits⟩ := hp
    subst henv
    exact {
      env := hps.env
      texts := by simp only [List.map_cons, htext, hps.texts]
      tys := by rw [List.map_cons, List.map_cons, hty, hps.tys]
      widens := (Env.Widens.declare Γ p'.name).trans hps.widens
      visits := hvisits.append hps.visits }

/-! ### Statements -/

/-- What comes of a statement. -/
structure StmtMoves (st : Stmt) (Γ : Env) (k : Nat) (st' : Stmt) (Γ' : Env) (k' : Nat) :
    Prop where
  env : Γ' = Γ.behind st'
  texts : st'.names.map (·.text) = st.names.map (·.text)
  entries : functionEntries [st'] = functionEntries [st]
  visits : Visits Γ k (st'.sites Γ) Γ' k'

/-- What comes of statements. -/
structure BlockMoves (ss : List Stmt) (Γ : Env) (k : Nat) (ss' : List Stmt) (Γ' : Env)
    (k' : Nat) : Prop where
  widens : Γ.Widens Γ'
  texts : (Stmt.allNames ss').map (·.text) = (Stmt.allNames ss).map (·.text)
  visits : Visits Γ k (Stmt.blockSites Γ ss') Γ' k'

/-- What comes of statements in a scope of their own. -/
structure ScopeMoves (ss : List Stmt) (Γ : Env) (k : Nat) (ss' : List Stmt) (Γ' : Env)
    (k' : Nat) : Prop where
  env : Γ' = Γ
  texts : (Stmt.allNames ss').map (·.text) = (Stmt.allNames ss).map (·.text)
  visits : Visits Γ k (Stmt.blockSites Γ.enter ss') Γ k'

/-- What comes of a statement that opens a scope, inside of that scope. -/
structure OpenMoves (st : Stmt) (Γ : Env) (k : Nat) (st' : Stmt) (Γ' : Env) (k' : Nat) :
    Prop where
  behind : ∀ Γ₀ : Env, Γ₀.behind st' = Γ₀
  texts : st'.names.map (·.text) = st.names.map (·.text)
  entries : functionEntries [st'] = functionEntries [st]
  visits : ∀ Γ₀ : Env, Γ = Γ₀.enter → Visits Γ k (st'.sites Γ₀) Γ' k'

/-- A statement that only looks up names. -/
theorem StmtMoves.of_resolves {st st' : Stmt} (h : Resolves Γ st.names st'.names)
    (hsites : st'.sites Γ = [⟨Γ, st'.names⟩]) (hbehind : Γ.behind st' = Γ)
    (hentries : functionEntries [st'] = functionEntries [st]) : StmtMoves st Γ k st' Γ k :=
  ⟨hbehind.symm, h.texts, hentries, hsites ▸ .here h.binds⟩

theorem moves_inScope {body : List Stmt} (h : Moves (stmts body) (BlockMoves body)) :
    Moves (inScope (stmts body)) (ScopeMoves body) := by
  refine (Moves.inScope (h.imp fun hb => ⟨hb.widens, hb⟩)).imp ?_
  rintro Γ k ss' _ k' ⟨rfl, Γ₁, hb⟩
  exact ⟨rfl, hb.texts, hb.visits.scope⟩

theorem moves_open {st : Stmt} {x : Analyze Stmt}
    (h : Moves x fun Γ k st' Γ' k' => Γ.Widens Γ' ∧ OpenMoves st Γ k st' Γ' k') :
    Moves (inScope x) (StmtMoves st) := by
  refine (Moves.inScope h).imp ?_
  rintro Γ k st' _ k' ⟨rfl, Γ₁, hst⟩
  exact ⟨(hst.behind _).symm, hst.texts, hst.entries, (hst.visits _ rfl).scope⟩

theorem names_assign (loc : Loc) (x : Name) (sub : Option Subscript) (value : Expr) :
    (Stmt.assign loc x sub value).names = x :: (subscriptNames sub ++ value.names) := by
  cases sub <;> rfl

theorem sites_assign (loc : Loc) (x : Name) (sub : Option Subscript) (value : Expr) (Γ : Env) :
    (Stmt.assign loc x sub value).sites Γ = [⟨Γ, (Stmt.assign loc x sub value).names⟩] := by
  cases sub <;> rfl

theorem moves_assignment {loc : Loc} {x : Name} {sub : Option Subscript} {value : Expr}
    (h : Unbound (Stmt.assign loc x sub value).names) :
    Moves (assignment loc x sub value) (StmtMoves (.assign loc x sub value)) := by
  rw [names_assign] at h
  obtain ⟨hx, h⟩ := Unbound.cons h
  obtain ⟨hsub, hvalue⟩ := h.append
  have hmoves : ∀ {Γ k x' sub' value'}, Resolves Γ value.names (Expr.names value') →
      Resolves Γ [x] [x'] → Resolves Γ (subscriptNames sub) (subscriptNames sub') →
      StmtMoves (.assign loc x sub value) Γ k (.assign loc x' sub' value') Γ k := by
    intro Γ k x' sub' value' hv hx hs
    refine .of_resolves ?_ (sites_assign _ _ _ _ _) rfl rfl
    rw [names_assign, names_assign]
    exact hx.append (hs.append hv)
  refine .after (sees_expr value hvalue) fun _ => .after (sees_resolve hx) fun (x', resolved) => ?_
  cases resolved with
  | none =>
    exact .after (sees_looseSubscript sub hsub) fun _ => .pure fun _ _ hs hx hv => hmoves hv hx hs
  | some p =>
    exact .after (sees_target _ _ _ sub hsub) fun _ => .after (sees_demand rfl) fun _ =>
      .after (sees_initialized _) fun _ => .pure fun _ _ _ _ hs hx hv => hmoves hv hx hs

mutual

theorem moves_stmt (st : Stmt) (h : New st.names) (top : Bool) :
    Moves (stmt top st) (StmtMoves st) := by
  cases st with
  | decl loc x declared init =>
    obtain ⟨hx, hi⟩ := New.cons h
    refine .after (sees_expr init hi.unbound) fun _ => .after (sees_declaredTy _ _ _) fun _ =>
      (moves_declare hx _ (.inl rfl) _).bind fun x' => .pure fun Γ' k' Γ k hx _ hi => ?_
    exact {
      env := hx.env
      texts := by simp only [Stmt.names, List.map_cons, hx.text, hi.texts]
      entries := rfl
      visits := (Visits.here hi.binds).append hx.visits }
  | assign loc x sub value => exact moves_assignment h.unbound
  | function loc f returns params body =>
    cases top with
    | false => exact fun s s' a hrun => absurd hrun (not_runs_report_pure rfl)
    | true =>
      obtain ⟨hp, hb⟩ := h.append
      refine moves_open <| (moves_parameters params hp).bind fun params' =>
        (moves_stmts body hb).inFunction.bind fun body' =>
          .pure fun Γ' k' Γ₁ k₁ hb Γ k hp => ⟨hp.widens.trans hb.widens, ?_⟩
      obtain rfl := hp.env
      exact {
        behind := fun _ => rfl
        texts := by simp only [Stmt.names, List.map_append, hp.texts, hb.texts]
        entries := by simp only [functionEntries, List.filterMap_cons, hp.tys]
        visits := by
          rintro Γ₀ rfl
          exact hp.visits.append hb.visits }
  | cond loc e body orElse =>
    cases orElse with
    | none =>
      obtain ⟨he, hb⟩ := h.append
      refine .after (sees_condition _ he.unbound) fun _ =>
        (moves_inScope (moves_stmts body hb)).bind fun _ => .pure fun Γ' k' Γ k hb he => ?_
      obtain rfl := hb.env
      exact {
        env := rfl
        texts := by simp only [Stmt.names, List.map_append, he.texts, hb.texts]
        entries := rfl
        visits := (Visits.here he.binds).append hb.visits }
    | some orElse =>
      obtain ⟨heb, ho⟩ := h.append
      obtain ⟨he, hb⟩ := heb.append
      refine .after (sees_condition _ he.unbound) fun _ =>
        (moves_inScope (moves_stmts body hb)).bind fun _ =>
        (moves_inScope (moves_stmts orElse ho)).bind fun _ =>
          .pure fun Γ' k' Γ₁ k₁ ho Γ k hb he => ?_
      obtain rfl := hb.env
      obtain rfl := ho.env
      exact {
        env := rfl
        texts := by simp only [Stmt.names, List.map_append, he.texts, hb.texts, ho.texts]
        entries := rfl
        visits := (Visits.here he.binds).append (hb.visits.append ho.visits) }
  | «while» loc e body =>
    obtain ⟨he, hb⟩ := h.append
    refine .after (sees_condition _ he.unbound) fun _ =>
      (moves_inScope (moves_stmts body hb)).inLoop.bind fun _ => .pure fun Γ' k' Γ k hb he => ?_
    obtain rfl := hb.env
    exact {
      env := rfl
      texts := by simp only [Stmt.names, List.map_append, he.texts, hb.texts]
      entries := rfl
      visits := (Visits.here he.binds).append hb.visits }
  | «repeat» loc count body =>
    obtain ⟨hc, hb⟩ := h.append
    refine .after (sees_expr count hc.unbound) fun _ => .after (sees_demand rfl) fun _ =>
      (moves_inScope (moves_stmts body hb)).inLoop.bind fun _ => .pure fun Γ' k' Γ k hb _ hc => ?_
    obtain rfl := hb.env
    exact {
      env := rfl
      texts := by simp only [Stmt.names, List.map_append, hc.texts, hb.texts]
      entries := rfl
      visits := (Visits.here hc.binds).append hb.visits }
  | «for» loc init e update body =>
    obtain ⟨hieu, hb⟩ := h.append
    obtain ⟨hie, hu⟩ := hieu.append
    obtain ⟨hi, he⟩ := hie.append
    refine moves_open <| (moves_stmt init hi false).bind fun init' =>
      .after (sees_condition _ he.unbound) fun e' =>
      (moves_stmt update hu false).bind fun update' =>
      (moves_inScope (moves_stmts body hb)).inLoop.bind fun body' =>
        .pure fun Γ₃ k₃ Γ₂ k₂ hb Γ₁ k₁ hu he Γ k hi => ?_
    obtain rfl := hb.env
    obtain rfl := hu.env
    obtain rfl := hi.env
    exact ⟨(Env.Widens.behind Γ init').trans (Env.Widens.behind _ update'), {
      behind := fun _ => rfl
      texts := by
        simp only [Stmt.names, List.map_append, hi.texts, he.texts, hu.texts, hb.texts]
      entries := rfl
      visits := by
        rintro Γ₀ rfl
        exact hi.visits.append ((Visits.here he.binds).append (hu.visits.append hb.visits)) }⟩
  | «break» loc =>
    exact .after (sees_checkLoop _) fun _ => .pure fun _ _ _ => .of_resolves .nil rfl rfl rfl
  | «continue» loc =>
    exact .after (sees_checkLoop _) fun _ => .pure fun _ _ _ => .of_resolves .nil rfl rfl rfl
  | «return» loc value =>
    exact .after (sees_optional value h.unbound) fun _ => .after (sees_checkReturn _) fun _ =>
      .pure fun _ _ _ hv => .of_resolves hv rfl rfl rfl
  | print loc values =>
    exact .after (sees_printed values h.unbound) fun _ =>
      .pure fun _ _ hv => .of_resolves hv rfl rfl rfl
  | input loc x =>
    exact .after (sees_inputTarget h.unbound loc) fun _ =>
      .pure fun _ _ hx => .of_resolves hx rfl rfl rfl
  | expr loc e =>
    exact .after (sees_expr e h.unbound) fun _ =>
      .pure fun _ _ he => .of_resolves he rfl rfl rfl
termination_by structural st

theorem moves_stmts (ss : List Stmt) (h : New (Stmt.allNames ss)) :
    Moves (stmts ss) (BlockMoves ss) := by
  cases ss with
  | nil => exact .pure fun Γ k => ⟨.refl Γ, rfl, .here Env.binds_nil⟩
  | cons st ss =>
    obtain ⟨hst, hss⟩ := h.append
    refine (moves_stmt st hst false).bind fun st' => (moves_stmts ss hss).bind fun ss' =>
      .pure fun Γ' k' Γ₁ k₁ hss Γ k hst => ?_
    obtain rfl := hst.env
    exact {
      widens := (Env.Widens.behind Γ st').trans hss.widens
      texts := by simp only [Stmt.allNames, List.map_append, hst.texts, hss.texts]
      visits := hst.visits.append hss.visits }
termination_by structural ss

end

/-! ### Programs -/

/-- What comes of statements at top level. -/
structure TopMoves (p : Program) (Γ : Env) (k : Nat) (p' : Program) (Γ' : Env) (k' : Nat) :
    Prop where
  texts : p'.names.map (·.text) = p.names.map (·.text)
  entries : functionEntries p' = functionEntries p
  visits : Visits Γ k (Stmt.blockSites Γ p') Γ' k'

theorem moves_topLevel : ∀ (p : Program), New p.names → Moves (topLevel p) (TopMoves p)
  | [], _ => .pure fun Γ k => ⟨rfl, rfl, .here Env.binds_nil⟩
  | st :: rest, h => by
    obtain ⟨hst, hrest⟩ : New st.names ∧ New (Program.names rest) := New.append h
    refine (moves_stmt st hst true).bind fun st' => (moves_topLevel rest hrest).bind fun rest' =>
      .pure fun Γ' k' Γ₁ k₁ hrest Γ k hst => ?_
    obtain rfl := hst.env
    exact {
      texts := by
        have htexts := hrest.texts
        simp only [Program.names, Stmt.allNames, List.map_append, hst.texts] at htexts ⊢
        rw [htexts]
      entries := by
        rw [functionEntries_cons, functionEntries_cons st, hst.entries, hrest.entries]
      visits := hst.visits.append hrest.visits }

end Analysis

/-- A name as the scanner gives it, for which nothing is bound yet. -/
structure Name.IsScanned (x : Name) : Prop where
  scanned : ∃ source, ∃ t ∈ (Token.scan source).tokens, t.kind = .name x.text
  unbound : x.binding = none

theorem Name.IsScanned.isPlain {x : Name} (h : x.IsScanned) : x.IsPlain := by
  obtain ⟨source, t, ht, hkind⟩ := h.scanned
  exact Token.isPlain_scan source t ht x.text hkind

namespace Program

variable {p : Program} {settings : SuggestionSettings}

/-- Analysis without an error goes through all points of the program that it makes. -/
theorem topMoves_of_analyze (hnames : New p.names) (h : Clean (p.analyze settings).reports) :
    ∃ Γ k, TopMoves p ⟨[], functionEntries p⟩ 0 (p.analyze settings).program Γ k := by
  obtain ⟨_, s₁, s₂, hhoist, htop⟩ := p.exists_of_analyze h
  obtain ⟨hr, htop⟩ := moves_topLevel p hnames _ _ _ htop
  obtain ⟨-, hk, hshows⟩ := @shows_of_hoist _ _ _ _ [] ⟨hhoist, hr⟩
  obtain ⟨hshows, -⟩ := hshows ⟨.nil, .nil⟩ List.nodup_nil
  rw [List.append_nil] at hshows
  obtain ⟨Γ, -, htop⟩ := htop _ hshows
  rw [show s₁.shadows = 0 from hk] at htop
  exact ⟨Γ, _, htop⟩

/-- Variables that are live at the same time share no place.  Let analysis report no error in a
program of any form whose names the scanner gave.  The annotated program has the same names, and
each of them stands at one of its points.  At every point the local variables in the open scopes,
those that others hide among them, have different slots; the names there are bound to the innermost
declaration in sight; and writing to a variable in an open scope leaves all others as they are. -/
theorem disjoint_of_analyze (hnames : ∀ x ∈ p.names, x.IsScanned)
    (h : Clean (p.analyze settings).reports) :
    (p.analyze settings).program.names.map (·.text) = p.names.map (·.text) ∧
    (∀ x ∈ (p.analyze settings).program.names, ∃ site ∈ (p.analyze settings).program.sites,
      x ∈ site.refs) ∧
    ∀ site ∈ (p.analyze settings).program.sites,
      site.env.localSlots.Nodup ∧
      (∀ x ∈ site.refs, ∃ b, site.env.find? x.text = some (.var b) ∧ x.binding = some b) ∧
      site.env.bindings.Pairwise fun b b' => ∀ (m : Machine) (v : Value),
        (m.write (.var b.variable) v).read? (.var b'.variable) = m.read? (.var b'.variable) ∧
        (m.write (.var b'.variable) v).read? (.var b.variable) = m.read? (.var b.variable) := by
  obtain ⟨Γ, k, htop⟩ :=
    topMoves_of_analyze (fun x hx => ⟨(hnames x hx).unbound, (hnames x hx).isPlain⟩) h
  refine ⟨htop.texts, fun x hx => ?_, fun site hsite => ?_⟩
  · exact List.mem_flatMap.1 ((mem_refs_sites _).2 hx)
  · rw [sites, htop.entries] at hsite
    obtain ⟨⟨k, hsound⟩, hrefs⟩ := htop.visits.sites (sound_functionEntries p) site hsite
    refine ⟨hsound.nodup_localSlots, fun x hx => ?_, hsound.pairwise_write⟩
    obtain ⟨b, hb⟩ := hrefs x hx
    exact ⟨b, hb.found, hb.binding⟩

/-- A parameter that a variable in the body of a loop hides, and a variable behind the loop. -/
def masking : Program :=
  [.function ⟨1, 1⟩ "f" .int [⟨.unbound "x", .int, ⟨1, 20⟩⟩]
    [.repeat ⟨2, 5⟩ (.name ⟨⟨2, 12⟩, none⟩ (.unbound "x"))
      [.decl ⟨3, 9⟩ (.unbound "x") .int (.name ⟨⟨3, 17⟩, none⟩ (.unbound "x")),
        .print ⟨4, 9⟩ [.name ⟨⟨4, 15⟩, none⟩ (.unbound "x")]],
      .decl ⟨6, 5⟩ (.unbound "y") .int (.name ⟨⟨6, 13⟩, none⟩ (.unbound "x")),
      .return ⟨7, 5⟩ (some (.name ⟨⟨7, 12⟩, none⟩ (.unbound "y")))]]

theorem disjoint_of_analyze_masking :
    (∃ site ∈ (masking.analyze {}).program.sites, site.env.localSlots = ["x#1", "x"]) ∧
    ∀ site ∈ (masking.analyze {}).program.sites, site.env.localSlots.Nodup := by
  have hscan : ∀ x ∈ masking.names, x.binding = none ∧
      ∃ t ∈ (Token.scan "x y").tokens, t.kind = .name x.text := by decide +kernel
  have hclean : Clean (masking.analyze {}).reports := by
    unfold Clean
    decide +kernel
  have hslots : ∃ site ∈ (masking.analyze {}).program.sites,
      site.env.localSlots = ["x#1", "x"] := by decide +kernel
  have h := disjoint_of_analyze (fun x hx => ⟨⟨"x y", (hscan x hx).2⟩, (hscan x hx).1⟩) hclean
  exact ⟨hslots, fun site hsite => (h.2.2 site hsite).1⟩

end Program

end NumericScript
