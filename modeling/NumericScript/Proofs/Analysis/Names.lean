import NumericScript.Proofs.Analysis.Slots

/-! # Names and what they stand for

A name of a program lives under itself, unless it is that of a local variable which hid another one
where it was declared.

* `Expr.names`, `Stmt.names`: the names in the parts of a program.
* `StandsFor`: what is known of the variable that a name of a program stands for.
* `ProgramTyped.standsFor`: that it is so for all names. -/

namespace NumericScript

/-! ### Names -/

mutual

/-- The names in an expression. -/
def Expr.names : Expr → List Name
  | .int _ _ | .float _ _ | .str _ _ | .bool _ _ => []
  | .name _ x => [x]
  | .binary _ _ l r => l.names ++ r.names
  | .unary _ _ e => e.names
  | .call _ _ args => Expr.allNames args
  | .array _ items => Expr.allNames items
  | .matrix _ rows => Expr.rowNames rows
  | .index _ base row none => base.names ++ row.names
  | .index _ base row (some col) => base.names ++ row.names ++ col.names

/-- The names in several expressions. -/
def Expr.allNames : List Expr → List Name
  | [] => []
  | e :: es => e.names ++ Expr.allNames es

/-- The names in rows of expressions. -/
def Expr.rowNames : List (List Expr) → List Name
  | [] => []
  | es :: rows => Expr.allNames es ++ Expr.rowNames rows

end

/-- The names in an expression that may be missing. -/
def Expr.optionalNames : Option Expr → List Name
  | none => []
  | some e => e.names

mutual

/-- The names in a statement, with those that it declares. -/
def Stmt.names : Stmt → List Name
  | .decl _ x _ init => x :: init.names
  | .assign _ x none value => x :: value.names
  | .assign _ x (some s) value => x :: (s.row.names ++ Expr.optionalNames s.col ++ value.names)
  | .function _ _ _ params body => params.map (·.name) ++ Stmt.allNames body
  | .cond _ e body none => e.names ++ Stmt.allNames body
  | .cond _ e body (some orElse) => e.names ++ Stmt.allNames body ++ Stmt.allNames orElse
  | .while _ e body => e.names ++ Stmt.allNames body
  | .repeat _ count body => count.names ++ Stmt.allNames body
  | .for _ init e update body => init.names ++ e.names ++ update.names ++ Stmt.allNames body
  | .break _ | .continue _ => []
  | .return _ value => Expr.optionalNames value
  | .print _ values => Expr.allNames values
  | .input _ x => [x]
  | .expr _ e => e.names

/-- The names in several statements. -/
def Stmt.allNames : List Stmt → List Name
  | [] => []
  | st :: ss => st.names ++ Stmt.allNames ss

end

/-- The names in a program. -/
def Program.names (p : Program) : List Name := Stmt.allNames p

/-- The parameters of the functions of a program. -/
def Program.params : Program → List Param
  | [] => []
  | .function _ _ _ params _ :: rest => params ++ Program.params rest
  | _ :: rest => Program.params rest

theorem Program.params_cons {st : Stmt} {rest : Program} (h : st.isFunction = false) :
    Program.params (st :: rest) = Program.params rest := by
  cases st <;> first | rfl | cases h

theorem Program.name_mem_names {p : Program} {q : Param} (h : q ∈ p.params) : q.name ∈ p.names := by
  induction p with
  | nil => cases h
  | cons st rest ih =>
    cases hst : st.isFunction with
    | false =>
      rw [Program.params_cons hst] at h
      exact List.mem_append_right _ (ih h)
    | true =>
      cases st <;> cases hst
      rcases List.mem_append.1 h with h | h
      · exact List.mem_append_left _ (List.mem_append_left _ (List.mem_map_of_mem h))
      · exact List.mem_append_right _ (ih h)

namespace Analysis

/-- Names are bound to what is in sight. -/
def Env.Binds (Γ : Env) (names : List Name) : Prop := ∀ x ∈ names, ∃ b, Bound Γ x b

section

variable {Γ : Env}

theorem Env.binds_nil : Γ.Binds [] := nofun

theorem Env.Binds.append {xs ys : List Name} (h : Γ.Binds xs) (h' : Γ.Binds ys) :
    Γ.Binds (xs ++ ys) := List.forall_mem_append.2 ⟨h, h'⟩

mutual

theorem ExprTyped.binds {e : Expr} {t : Ty} (h : ExprTyped Γ e t) : Γ.Binds e.names := by
  cases h with
  | int | float | str | bool => exact Env.binds_nil
  | name hm hx =>
    intro y hy
    obtain rfl := List.mem_singleton.1 hy
    exact ⟨_, hx⟩
  | binary hm hl hr ht => exact hl.binds.append hr.binds
  | unary hm he ht => exact he.binds
  | call hm ha ht => exact ha.binds
  | array hm hi => exact hi.binds
  | matrix hm hs hr => exact hr.binds
  | element hm hb hr hi ht => exact hb.binds.append hr.binds
  | entry hm hb hr hi hc hj ht => exact (hb.binds.append hr.binds).append hc.binds

theorem ExprsTyped.binds {es : List Expr} {ts : List Ty} (h : ExprsTyped Γ es ts) :
    Γ.Binds (Expr.allNames es) := by
  cases h with
  | nil => exact Env.binds_nil
  | cons he hes => exact he.binds.append hes.binds

theorem ElementsTyped.binds {es : List Expr} {t t' : Ty} (h : ElementsTyped Γ t es t') :
    Γ.Binds (Expr.allNames es) := by
  cases h with
  | nil => exact Env.binds_nil
  | cons he hj hes => exact he.binds.append hes.binds

theorem EntriesTyped.binds {es : List Expr} (h : EntriesTyped Γ es) :
    Γ.Binds (Expr.allNames es) := by
  cases h with
  | nil => exact Env.binds_nil
  | cons he ht hes => exact he.binds.append hes.binds

theorem RowsTyped.binds {cols : Nat} {rows : List (List Expr)} (h : RowsTyped Γ cols rows) :
    Γ.Binds (Expr.rowNames rows) := by
  cases h with
  | nil => exact Env.binds_nil
  | cons hc he hes => exact he.binds.append hes.binds

end

theorem PrintedTyped.binds {es : List Expr} (h : PrintedTyped Γ es) :
    Γ.Binds (Expr.allNames es) := by
  induction h with
  | nil => exact Env.binds_nil
  | cons he _ _ ih => exact he.binds.append ih

theorem SubscriptTyped.binds {container t : Ty} {s : Subscript}
    (h : SubscriptTyped Γ container s t) : Γ.Binds (s.row.names ++ Expr.optionalNames s.col) := by
  cases h with
  | element hr hi ht => exact hr.binds.append Env.binds_nil
  | entry hr hi hc hj ht => exact hr.binds.append hc.binds

end

/-! ### What names stand for -/

/-- What is known of the variable that a name among `N` stands for.  A variable that does not live
under its name is local, and so is another one of that name. -/
structure StandsFor (N : List Name) (x : String) (b : Binding) : Prop where
  plain : '#' ∉ x.toList
  named : ∃ y ∈ N, y.text = x ∧ y.binding = some b
  slot : b.slot = x ∨ b.storage = .local ∧ (∃ n : Nat, b.slot = x ++ "#" ++ toString n) ∧
    ∃ y ∈ N, y.text = x ∧ ∃ b', y.binding = some b' ∧ b'.storage = .local ∧ b'.slot ≠ b.slot

/-- All of some names stand for something of which that much is known. -/
def AllStand (N xs : List Name) : Prop := ∀ x ∈ xs, ∃ b, x.binding = some b ∧ StandsFor N x.text b

/-- That much is known of all variables in sight. -/
def Env.Stands (N : List Name) (Γ : Env) : Prop :=
  ∀ names ∈ Γ.chain, ∀ q ∈ names, ∀ b, q.2 = .var b → StandsFor N q.1 b

section

variable {N xs ys : List Name} {Γ Γ' : Env} {k k' : Nat} {x : Name} {b : Binding} {t : Ty}

theorem AllStand.append (h : AllStand N xs) (h' : AllStand N ys) : AllStand N (xs ++ ys) :=
  List.forall_mem_append.2 ⟨h, h'⟩

theorem AllStand.cons (h : ∃ b, x.binding = some b ∧ StandsFor N x.text b) (h' : AllStand N xs) :
    AllStand N (x :: xs) := List.forall_mem_cons.2 ⟨h, h'⟩

theorem Env.Stands.enter (h : Γ.Stands N) : Γ.enter.Stands N := by
  intro names hnames
  rcases List.mem_cons.1 hnames with rfl | hnames
  · exact fun q hq => by cases hq
  · exact h names hnames

theorem Env.Stands.find? (h : Γ.Stands N) {y : String} (hy : Γ.find? y = some (.var b)) :
    StandsFor N y b := by
  obtain ⟨names, hnames, hl⟩ := List.exists_of_findSome?_eq_some hy
  exact h names hnames _ (mem_of_lookup hl) b rfl

theorem Env.Stands.bound (h : Γ.Stands N) (hx : Bound Γ x b) :
    ∃ b, x.binding = some b ∧ StandsFor N x.text b :=
  ⟨b, hx.binding, h.find? hx.found⟩

theorem Env.Stands.binds (h : Γ.Stands N) (hx : Γ.Binds xs) : AllStand N xs := by
  intro x hmem
  obtain ⟨b, hb⟩ := hx x hmem
  exact h.bound hb

/-- A new variable lives under its name unless it hides another local variable. -/
theorem Declares.standsFor (h : Γ.Slotted k) (hs : Γ.Stands N) (hx : Declares Γ k x t Γ' k')
    (hmem : x ∈ N) : StandsFor N x.text ⟨Γ.slot k x.text, t, Γ.storage⟩ := by
  refine ⟨hx.plain, ⟨x, hmem, rfl, hx.binding⟩, ?_⟩
  by_cases hhides : Γ.hides x.text = true
  · obtain ⟨hinner, hfound⟩ := Bool.and_eq_true_iff.1 hhides
    have hlocal : Γ.isGlobal = false := by simpa using hinner
    refine .inr ⟨?_, ⟨k + 1, if_pos hhides⟩, ?_⟩
    · rw [Env.storage, hlocal]
      rfl
    · cases he : Γ.find? x.text with
      | none =>
        rw [he] at hfound
        cases hfound
      | some e =>
        rw [he] at hfound
        cases e with
        | function params returns => cases hfound
        | var b =>
          have hb : b.storage = .local := of_decide_eq_true hfound
          obtain ⟨y, hy, hname, hbinding⟩ := (hs.find? he).named
          refine ⟨y, hy, hname, b, hbinding, hb, fun hslot => ?_⟩
          have hknown := h.bound_local (x := ⟨x.text, some b⟩) ⟨he, rfl⟩ hb
          rw [hslot, hx.locals_slot h hlocal] at hknown
          cases hknown
  · exact .inl (if_neg hhides)

theorem Declares.stands (h : Γ.Slotted k) (hs : Γ.Stands N) (hx : Declares Γ k x t Γ' k')
    (hmem : x ∈ N) : Γ'.Stands N := by
  have hnew := hx.standsFor h hs hmem
  have hadded : ∀ {names : Names}, (∀ q ∈ names, ∀ b, q.2 = .var b → StandsFor N q.1 b) →
      ∀ q ∈ (x.text, Entry.var ⟨Γ.slot k x.text, t, Γ.storage⟩) :: names, ∀ b, q.2 = .var b →
        StandsFor N q.1 b := by
    intro names hnames q hq b hb
    rcases List.mem_cons.1 hq with rfl | hq
    · cases hb
      exact hnew
    · exact hnames q hq b hb
  rw [hx.env]
  unfold Env.add
  cases hinner : Γ.inner with
  | nil =>
    intro names hnames
    obtain rfl := List.mem_singleton.1 hnames
    exact hadded (hs Γ.root (by simp [Env.chain]))
  | cons first outer =>
    intro names hnames
    rcases List.mem_cons.1 hnames with rfl | hnames
    · exact hadded (hs first (by simp [Env.chain, hinner]))
    · exact hs names (by
        rw [Env.chain, hinner]
        exact List.mem_cons_of_mem _ hnames)

end

/-! ### Statements -/

mutual

theorem StmtTyped.stands {N : List Name} (st : Stmt) : ∀ {σ : Scene} {Γ Γ' : Env} {k k' : Nat},
    StmtTyped σ Γ k st Γ' k' → Γ.Slotted k → Γ.Stands N → (∀ x ∈ st.names, x ∈ N) →
      AllStand N st.names ∧ Γ'.Stands N := by
  intro σ Γ Γ' k k' hst h hs hN
  cases hst with
  | decl hw hi ht hx =>
    have hmem := hN _ List.mem_cons_self
    exact ⟨.cons ⟨_, hx.binding, hx.standsFor h hs hmem⟩ (hs.binds hi.binds), hx.stands h hs hmem⟩
  | assign hx hv ht => exact ⟨.cons (hs.bound hx) (hs.binds hv.binds), hs⟩
  | store hx hv hsub ht =>
    exact ⟨.cons (hs.bound hx) ((hs.binds hsub.binds).append (hs.binds hv.binds)), hs⟩
  | cond he hb =>
    obtain ⟨-, hbody⟩ := List.forall_mem_append.1 hN
    exact ⟨(hs.binds he.typed.binds).append
      (BlockTyped.stands _ hb h.enter hs.enter hbody).1, hs⟩
  | @branch _ _ _ _ _ k₁ _ _ _ _ _ _ he hb ho =>
    obtain ⟨hfirst, helse⟩ := List.forall_mem_append.1 hN
    obtain ⟨-, hbody⟩ := List.forall_mem_append.1 hfirst
    have hle := BlockTyped.shadows_le _ hb
    exact ⟨((hs.binds he.typed.binds).append
      (BlockTyped.stands _ hb h.enter hs.enter hbody).1).append
        (BlockTyped.stands _ ho (h.enter.mono hle) hs.enter helse).1, hs⟩
  | «while» he hb =>
    obtain ⟨-, hbody⟩ := List.forall_mem_append.1 hN
    exact ⟨(hs.binds he.typed.binds).append
      (BlockTyped.stands _ hb h.enter hs.enter hbody).1, hs⟩
  | «repeat» he ht hb =>
    obtain ⟨-, hbody⟩ := List.forall_mem_append.1 hN
    exact ⟨(hs.binds he.binds).append (BlockTyped.stands _ hb h.enter hs.enter hbody).1, hs⟩
  | @«for» _ _ Γ₁ _ _ k₁ k₂ _ _ _ _ _ _ _ hsi hi he hsu hnd hu hb =>
    obtain ⟨hfirst, hbody⟩ := List.forall_mem_append.1 hN
    obtain ⟨hfirst, hupdate⟩ := List.forall_mem_append.1 hfirst
    obtain ⟨hinit, -⟩ := List.forall_mem_append.1 hfirst
    obtain ⟨hinit', hs₁⟩ := StmtTyped.stands _ hi h.enter hs.enter hinit
    have h₁ : Γ₁.Slotted k₁ := hi.slotted h.enter (StmtTyped.shadows_le _ hi)
    have h₂ : Γ₁.Slotted k₂ := h₁.mono (StmtTyped.shadows_le _ hu)
    exact ⟨((hinit'.append (hs₁.binds he.typed.binds)).append
      (StmtTyped.stands _ hu h₁ hs₁ hupdate).1).append
        (BlockTyped.stands _ hb h₂.enter hs₁.enter hbody).1, hs⟩
  | «break» | «continue» | leave => exact ⟨nofun, hs⟩
  | «return» hf hv he ht => exact ⟨hs.binds he.binds, hs⟩
  | print hv => exact ⟨hs.binds hv.binds, hs⟩
  | input hx hr => exact ⟨.cons (hs.bound hx) nofun, hs⟩
  | expr hse he => exact ⟨hs.binds he.binds, hs⟩
termination_by structural st

theorem BlockTyped.stands {N : List Name} (ss : List Stmt) :
    ∀ {σ : Scene} {Γ Γ' : Env} {k k' : Nat}, BlockTyped σ Γ k ss Γ' k' → Γ.Slotted k →
      Γ.Stands N → (∀ x ∈ Stmt.allNames ss, x ∈ N) → AllStand N (Stmt.allNames ss) ∧
        Γ'.Stands N := by
  intro σ Γ Γ' k k' hss h hs hN
  cases hss with
  | nil => exact ⟨nofun, hs⟩
  | cons hst hss =>
    obtain ⟨hfirst, hrest⟩ := List.forall_mem_append.1 hN
    obtain ⟨hnames, hs₁⟩ := StmtTyped.stands _ hst h hs hfirst
    obtain ⟨hnames', hs₂⟩ :=
      BlockTyped.stands _ hss (hst.slotted h (StmtTyped.shadows_le _ hst)) hs₁ hrest
    exact ⟨hnames.append hnames', hs₂⟩
termination_by structural ss

end

theorem ParamsTyped.stands {N : List Name} {Γ Γ' : Env} {k k' : Nat} {params : List Param}
    (hps : ParamsTyped Γ k params Γ' k') (h : Γ.Slotted k) (hs : Γ.Stands N)
    (hN : ∀ x ∈ params.map (·.name), x ∈ N) :
    AllStand N (params.map (·.name)) ∧ Γ'.Stands N := by
  induction hps with
  | nil => exact ⟨nofun, hs⟩
  | cons hp hw hx _ ih =>
    obtain ⟨hmem, hrest⟩ := List.forall_mem_cons.1 hN
    obtain ⟨hnames, hs'⟩ := ih (hx.slotted h) (hx.stands h hs hmem) hrest
    exact ⟨.cons ⟨_, hx.binding, hx.standsFor h hs hmem⟩ hnames, hs'⟩

theorem TopTyped.stands {N : List Name} {Γ Γ' : Env} {k k' : Nat} {p : Program}
    (hp : TopTyped Γ k p Γ' k') (h : Γ.Slotted k) (hs : Γ.Stands N)
    (hN : ∀ x ∈ p.names, x ∈ N) : AllStand N p.names := by
  induction hp with
  | nil => exact nofun
  | function hw hps hb _ ih =>
    obtain ⟨hfirst, hrest⟩ := List.forall_mem_append.1 hN
    obtain ⟨hparams, hbody⟩ := List.forall_mem_append.1 hfirst
    have hslotted := hps.slotted h.enter
    obtain ⟨hnames, hs₁⟩ := hps.stands h.enter hs.enter hparams
    have hk := Nat.le_trans hps.shadows_le (BlockTyped.shadows_le _ hb)
    exact (hnames.append (BlockTyped.stands _ hb hslotted hs₁ hbody).1).append
      (ih (h.mono hk) hs hrest)
  | cons hst _ ih =>
    obtain ⟨hfirst, hrest⟩ := List.forall_mem_append.1 hN
    obtain ⟨hnames, hs₁⟩ := StmtTyped.stands _ hst h hs hfirst
    exact hnames.append (ih (hst.slotted h (StmtTyped.shadows_le _ hst)) hs₁ hrest)

/-! ### Parameters -/

theorem ParamsTyped.storage_eq {Γ Γ' : Env} {k k' : Nat} {params : List Param}
    (h : ParamsTyped Γ k params Γ' k') (hlocal : Γ.isGlobal = false) {q : Param}
    (hq : q ∈ params) : ∃ b, q.name.binding = some b ∧ b.storage = .local := by
  induction h with
  | nil => cases hq
  | cons _ _ hx _ ih =>
    rcases List.mem_cons.1 hq with rfl | hq
    · refine ⟨_, hx.binding, ?_⟩
      rw [Env.storage, hlocal]
      rfl
    · exact ih (hx.isGlobal.trans hlocal) hq

theorem TopTyped.storage_eq {Γ Γ' : Env} {k k' : Nat} {p : Program} (h : TopTyped Γ k p Γ' k')
    {q : Param} (hq : q ∈ p.params) : ∃ b, q.name.binding = some b ∧ b.storage = .local := by
  induction h with
  | nil => cases hq
  | @function Γ _ _ _ _ _ _ _ _ _ _ _ _ _ _ hps _ _ ih =>
    rcases List.mem_append.1 hq with hq | hq
    · exact hps.storage_eq (Env.isGlobal_enter Γ) hq
    · exact ih hq
  | cons hst _ ih =>
    rw [Program.params_cons (isFunction_of_stmtTyped hst)] at hq
    exact ih hq

end Analysis

open Analysis

/-- So much is known of what the names of a program stand for. -/
theorem ProgramTyped.standsFor {p : Program} (h : ProgramTyped p) {x : Name} (hx : x ∈ p.names) :
    ∃ b, x.binding = some b ∧ StandsFor p.names x.text b := by
  obtain ⟨Γ, k, htop⟩ := h.top
  refine htop.stands (slotted_functionEntries p) (fun names hnames q hq b hb => ?_)
    (fun _ => id) x hx
  -- At the start only functions are in sight.
  obtain rfl := List.mem_singleton.1 hnames
  obtain ⟨params, returns, he⟩ := exists_of_mem_functionEntries hq
  rw [hb] at he
  cases he

/-- Parameters are local variables. -/
theorem ProgramTyped.storage_param {p : Program} (h : ProgramTyped p) {q : Param}
    (hq : q ∈ p.params) : ∃ b, q.name.binding = some b ∧ b.storage = .local := by
  obtain ⟨Γ, k, htop⟩ := h.top
  exact htop.storage_eq hq

end NumericScript
