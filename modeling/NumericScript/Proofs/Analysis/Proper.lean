import NumericScript.Proofs.Analysis.Rules

/-! # Types of what is in sight

A program cannot name the type of nothing for a variable or a parameter, nor a type that is
unknown.  So no variable in sight has such a type, and which functions can be called is the same
everywhere in a program.

* `Env.Proper`: the types of what is in sight.
* `ExprTyped.proper`: the types of expressions.
* `StmtTyped.proper`, `StmtTyped.callee?_eq`: both stay so from statement to statement. -/

namespace NumericScript

open Analysis

/-- Whether a type has values, and so have the elements of its values. -/
def Ty.hasValues : Ty → Bool
  | .void => false
  | .array element => element.hasValues
  | _ => true

theorem Ty.hasValues_of_isWritten {t : Ty} (h : t.isWritten = true) (hv : t ≠ .void) :
    t.hasValues = true := by
  unfold isWritten at h
  split at h <;> first | rfl | exact absurd rfl hv | cases h

theorem Ty.ne_unknown_of_isWritten {t : Ty} (h : t.isWritten = true) : t ≠ .unknown := by
  rintro rfl
  cases h

theorem Ty.ne_void_of_hasValues {t : Ty} (h : t.hasValues = true) : t ≠ .void := by
  rintro rfl
  cases h

/-- What is not known to be nothing, and is no type that takes anything, does not take it. -/
theorem Ty.not_accepts_void {t : Ty} (hu : t ≠ .unknown) (hv : t ≠ .void) :
    t.accepts .void = false := by
  cases t <;> first | rfl | exact absurd rfl hu | exact absurd rfl hv

namespace Analysis

/-- The types of what a name stands for. -/
def Entry.Proper : Entry → Prop
  | .var b => b.ty.hasValues = true ∧ b.ty ≠ .unknown
  | .function params returns =>
    (∀ t ∈ params, t.isWritten = true ∧ t ≠ .void) ∧ returns.isWritten = true

/-- The types of what is in sight. -/
def Env.Proper (Γ : Env) : Prop := ∀ names ∈ Γ.chain, ∀ q ∈ names, q.2.Proper

theorem mem_of_lookup {names : Names} {x : String} {e : Entry} (h : names.lookup x = some e) :
    (x, e) ∈ names := by
  induction names with
  | nil => cases h
  | cons q names ih =>
    obtain ⟨y, e'⟩ := q
    rw [List.lookup_cons] at h
    split at h
    · rename_i hxy
      cases h
      rw [beq_iff_eq.1 hxy]
      exact List.mem_cons_self
    · exact List.mem_cons_of_mem _ (ih h)

section

variable {Γ Γ' : Env} {σ : Scene} {k k' : Nat} {x : Name} {f : String}

theorem Env.Proper.root (h : Γ.Proper) {q : String × Entry} (hq : q ∈ Γ.root) : q.2.Proper :=
  h Γ.root (by simp [Env.chain]) q hq

theorem Env.Proper.bound (h : Γ.Proper) {b : Binding} (hx : Bound Γ x b) :
    b.ty.hasValues = true ∧ b.ty ≠ .unknown := by
  obtain ⟨names, hnames, hb⟩ := List.exists_of_findSome?_eq_some hx.found
  exact h names hnames _ (mem_of_lookup hb)

theorem Env.Proper.callee (h : Γ.Proper) {params : List Ty} {returns : Ty}
    (hf : Γ.callee? f = some (params, returns)) :
    (∀ t ∈ params, t.isWritten = true ∧ t ≠ .void) ∧ returns.isWritten = true := by
  unfold Env.callee? at hf
  split at hf
  · rename_i hl
    cases hf
    exact h.root (mem_of_lookup hl)
  · cases hf

theorem Env.Proper.enter (h : Γ.Proper) : Γ.enter.Proper := by
  intro names hnames q hq
  rcases List.mem_cons.1 hnames with rfl | hmem
  · cases hq
  · exact h names hmem q hq

theorem Env.Proper.add (h : Γ.Proper) {y : String} {e : Entry} (he : e.Proper) :
    (Γ.add y e).Proper := by
  intro names hnames q hq
  unfold Env.add at hnames
  split at hnames
  · rename_i inner outer hinner
    rcases List.mem_cons.1 hnames with rfl | hmem
    · rcases List.mem_cons.1 hq with rfl | hq
      · exact he
      · exact h inner (by simp [Env.chain, hinner]) q hq
    · exact h names (by simp only [Env.chain, hinner]; exact List.mem_cons_of_mem _ hmem) q hq
  · rename_i hinner
    simp only [Env.chain, hinner, List.nil_append, List.mem_singleton] at hnames
    subst hnames
    rcases List.mem_cons.1 hq with rfl | hq
    · exact he
    · exact h.root hq

/-! ### Types of expressions -/

theorem hasValues_ofMatrices? {op : BinaryOp} {a b : Option (Nat × Nat)} {t : Ty}
    (h : Ty.ofMatrices? op a b = some t) : t.hasValues = true := by
  unfold Ty.ofMatrices? at h
  split at h
  · split at h
    · split at h <;> cases h
      rfl
    · cases h
      rfl
  · split at h
    · split at h <;> cases h
      rfl
    · cases h
      rfl
  · split at h
    · split at h <;> cases h
      rfl
    · cases h
      rfl
  · cases h

theorem hasValues_ofScaled? {op : BinaryOp} {shape : Option (Nat × Nat)} {k t : Ty}
    (h : Ty.ofScaled? op shape k = some t) : t.hasValues = true := by
  unfold Ty.ofScaled? at h
  split at h
  · cases h
    rfl
  · cases h
    rfl
  · split at h
    · split at h
      · split at h <;> cases h
        rfl
      · cases h
        rfl
    · cases h
  · cases h

theorem hasValues_ofArithmetic? {op : BinaryOp} {left right t : Ty}
    (h : Ty.ofArithmetic? op left right = some t) : t.hasValues = true := by
  unfold Ty.ofArithmetic? at h
  repeat' split at h
  all_goals first
    | exact hasValues_ofMatrices? h
    | exact hasValues_ofScaled? h
    | (cases h <;> rfl)

theorem hasValues_binaryTy? {op : BinaryOp} {left right t : Ty}
    (h : binaryTy? op left right = some t) : t.hasValues = true := by
  unfold binaryTy? at h
  split at h
  · cases h
    rfl
  · unfold BinaryOp.ty? at h
    split at h
    all_goals first
      | exact hasValues_ofArithmetic? h
      | (split at h <;> cases h <;> rfl)

theorem hasValues_unaryTy? {op : UnaryOp} {operand t : Ty} (h : unaryTy? op operand = some t) :
    t.hasValues = true := by
  unfold unaryTy? at h
  split at h
  · cases h
    rfl
  · unfold UnaryOp.ty? at h
    split at h <;> cases h <;> rfl

theorem hasValues_elementTy? {container t : Ty} {matrix : Bool}
    (h : elementTy? container matrix = some t)
    (hc : container.hasValues = true) : t.hasValues = true := by
  unfold elementTy? at h
  split at h <;> cases h
  · rfl
  · exact hc
  · rfl

theorem hasValues_joinElement? {element found t : Ty} (h : joinElement? element found = some t)
    (he : element.hasValues = true) (hf : found = .void ∨ found.hasValues = true) :
    t.hasValues = true := by
  unfold joinElement? at h
  split at h
  · cases h
  · cases h
    exact he
  · cases h
    rcases hf with rfl | hf
    · exact absurd rfl ‹_›
    · exact hf
  · cases h
    rfl
  · cases h
    rfl
  · split at h <;> cases h
    rename_i heq
    exact heq ▸ he

/-- A function gives nothing, or values of a type that has some. -/
theorem hasValues_callTy? (h : Γ.Proper) {args : List Ty} {t : Ty}
    (ht : Γ.callTy? f args = some t) : t = .void ∨ t.hasValues = true := by
  unfold Env.callTy? at ht
  split at ht
  · rename_i hf
    split at ht <;> cases ht
    by_cases hv : t = .void
    · exact .inl hv
    · exact .inr (Ty.hasValues_of_isWritten (h.callee hf).2 hv)
  · split at ht
    · rename_i b hb
      split at ht <;> cases ht
      cases b <;> first | exact .inl rfl | exact .inr rfl
    · cases ht

theorem exists_mem_zip {α β : Type} {as : List α} {bs : List β} (hlen : bs.length ≤ as.length)
    {b : β} (hb : b ∈ bs) : ∃ a, (a, b) ∈ as.zip bs := by
  induction bs generalizing as with
  | nil => cases hb
  | cons b' bs ih =>
    cases as with
    | nil => simp at hlen
    | cons a as =>
      rcases List.mem_cons.1 hb with rfl | hb
      · exact ⟨a, by simp⟩
      · obtain ⟨a', ha'⟩ := ih (by simpa using hlen) hb
        exact ⟨a', by simp [ha']⟩

/-- No function takes an argument that is nothing. -/
theorem ne_void_of_callTy? (h : Γ.Proper) {args : List Ty} {t : Ty}
    (ht : Γ.callTy? f args = some t) : ∀ u ∈ args, u ≠ .void := by
  rintro u hu rfl
  unfold Env.callTy? at ht
  split at ht
  · rename_i params returns hf
    split at ht
    · rename_i hargs
      obtain ⟨p, hp⟩ := exists_mem_zip (Nat.le_of_eq hargs.1.symm) hu
      have haccepts : p.accepts .void = true := List.all_eq_true.1 hargs.2 _ hp
      obtain ⟨hw, hv⟩ := (h.callee hf).1 p (List.of_mem_zip hp).1
      rw [Ty.not_accepts_void (Ty.ne_unknown_of_isWritten hw) hv] at haccepts
      cases haccepts
    · cases ht
  · split at ht
    · split at ht
      · rename_i b _ hargs
        have hlen := (Bool.and_eq_true_iff.1 hargs.1).2
        obtain ⟨p, hp⟩ := exists_mem_zip (of_decide_eq_true hlen) hu
        have haccepts : p.accepts .void = true := List.all_eq_true.1 hargs.2 _ hp
        cases p <;> cases haccepts
      · cases ht
    · cases ht

mutual

/-- An expression gives nothing, or values of a type that has some. -/
theorem ExprTyped.proper (h : Γ.Proper) (e : Expr) : ∀ {t : Ty}, ExprTyped Γ e t →
    t = .void ∨ t.hasValues = true := by
  intro t he
  cases he with
  | int | float | str | bool => exact .inr rfl
  | name hm hx => exact .inr (h.bound hx).1
  | binary hm hl hr ht => exact .inr (hasValues_binaryTy? ht)
  | unary hm he ht => exact .inr (hasValues_unaryTy? ht)
  | call hm ha ht => exact hasValues_callTy? h ht
  | array hm hi =>
    have hunknown : Ty.unknown.hasValues = true := rfl
    have helement := ElementsTyped.proper h _ hunknown hi
    exact .inr helement
  | matrix hm hs hr => exact .inr rfl
  | element hm hb hr hi ht =>
    rcases ExprTyped.proper h _ hb with rfl | hc
    · cases ht
    · exact .inr (hasValues_elementTy? ht hc)
  | entry hm hb hr hi hc hj ht =>
    rcases ExprTyped.proper h _ hb with rfl | hc
    · cases ht
    · exact .inr (hasValues_elementTy? ht hc)
termination_by structural e

theorem ElementsTyped.proper (h : Γ.Proper) (es : List Expr) : ∀ {element result : Ty},
    element.hasValues = true → ElementsTyped Γ element es result → result.hasValues = true := by
  intro element result hv hes
  cases es with
  | nil =>
    cases hes
    exact hv
  | cons e es =>
    cases hes with
    | cons he hj hes =>
      have hfound := ExprTyped.proper h e he
      exact ElementsTyped.proper h es (hasValues_joinElement? hj hv hfound) hes
termination_by structural es

end

/-! ### What statements keep -/

theorem hasValues_declaredTy? {declared found t : Ty} (h : declaredTy? declared found = some t)
    (hw : declared.isWritten = true) (hf : found = .void ∨ found.hasValues = true) :
    t.hasValues = true ∧ t ≠ .unknown := by
  unfold declaredTy? at h
  split at h <;> cases h
  rename_i hd
  unfold Ty.refine
  split
  · rename_i element
    refine ⟨?_, nofun⟩
    rcases hf with hf | hf
    · cases hf
    · exact hf
  · exact ⟨Ty.hasValues_of_isWritten hw hd.1, Ty.ne_unknown_of_isWritten hw⟩

theorem Declares.proper {t : Ty} (hx : Declares Γ k x t Γ' k') (h : Γ.Proper)
    (ht : t.hasValues = true ∧ t ≠ .unknown) : Γ'.Proper := by
  rw [hx.env]
  exact h.add ht

/-- Declaring a variable does not change what can be called. -/
theorem Declares.callee?_eq {t : Ty} (hx : Declares Γ k x t Γ' k') : Γ'.callee? = Γ.callee? := by
  funext f
  have hfresh := hx.fresh
  rw [hx.env]
  unfold Env.add Env.callee? Env.current at *
  cases hinner : Γ.inner with
  | cons names outer => rfl
  | nil =>
    rw [hinner] at hfresh
    have hroot : Γ.root.lookup x.text = none := hfresh
    dsimp only
    rw [List.lookup_cons]
    cases hf : f == x.text with
    | true =>
      rw [beq_iff_eq.1 hf, hroot]
    | false => rfl

theorem StmtTyped.proper {st : Stmt} (hs : StmtTyped σ Γ k st Γ' k') (h : Γ.Proper) :
    Γ'.Proper := by
  cases hs with
  | decl hw hi ht hx => exact hx.proper h (hasValues_declaredTy? ht hw (hi.proper h _))
  | _ => exact h

theorem StmtTyped.callee?_eq {st : Stmt} (hs : StmtTyped σ Γ k st Γ' k') :
    Γ'.callee? = Γ.callee? := by
  cases hs with
  | decl hw hi ht hx => exact hx.callee?_eq
  | _ => rfl

theorem ParamsTyped.proper {ps : List Param} : ∀ {Γ : Env} {k : Nat},
    ParamsTyped Γ k ps Γ' k' → Γ.Proper → Γ'.Proper := by
  induction ps with
  | nil =>
    intro Γ k hps h
    cases hps
    exact h
  | cons p ps ih =>
    intro Γ k hps h
    cases hps with
    | cons hp hw hx hps =>
      have ht := And.intro (Ty.hasValues_of_isWritten hw hp) (Ty.ne_unknown_of_isWritten hw)
      exact ih hps (hx.proper h ht)

theorem ParamsTyped.callee?_eq {ps : List Param} : ∀ {Γ : Env} {k : Nat},
    ParamsTyped Γ k ps Γ' k' → Γ'.callee? = Γ.callee? := by
  induction ps with
  | nil =>
    intro Γ k hps
    cases hps
    rfl
  | cons p ps ih =>
    intro Γ k hps
    cases hps with
    | cons hp hw hx hps => exact (ih hps).trans hx.callee?_eq

theorem ParamsTyped.types {ps : List Param} : ∀ {Γ : Env} {k : Nat},
    ParamsTyped Γ k ps Γ' k' → ∀ p ∈ ps, p.ty.isWritten = true ∧ p.ty ≠ .void := by
  induction ps with
  | nil => exact fun _ => nofun
  | cons p ps ih =>
    intro Γ k hps
    cases hps with
    | cons hp hw hx hps => exact List.forall_mem_cons.2 ⟨⟨hw, hp⟩, ih hps⟩

end

/-- The functions of a program take and give what can be written. -/
theorem TopTyped.entries {p : Program} : ∀ {Γ Γ' : Env} {k k' : Nat}, TopTyped Γ k p Γ' k' →
    ∀ q ∈ functionEntries p, q.2.Proper := by
  induction p with
  | nil => exact fun _ => nofun
  | cons st rest ih =>
    intro Γ Γ' k k' h q hq
    rw [functionEntries_cons] at hq
    rcases List.mem_append.1 hq with hrest | hst
    · cases h with
      | function hw hp hb h => exact ih h q hrest
      | cons hs h => exact ih h q hrest
    · cases h with
      | @function _ _ _ _ _ _ _ _ loc f returns params body _ hw hp hb h =>
        obtain rfl : q = (f, .function (params.map (·.ty)) returns) := by
          simpa [functionEntries] using hst
        refine ⟨fun t ht => ?_, hw⟩
        obtain ⟨param, hparam, rfl⟩ := List.mem_map.1 ht
        exact hp.types param hparam
      | cons hs h =>
        rw [functionEntries_of_isFunction (isFunction_of_stmtTyped hs)] at hst
        cases hst

/-- What is in sight at the start of a program. -/
theorem TopTyped.proper {p : Program} {Γ : Env} {k : Nat}
    (h : TopTyped ⟨[], functionEntries p⟩ 0 p Γ k) : (⟨[], functionEntries p⟩ : Env).Proper := by
  intro names hnames q hq
  obtain rfl : names = functionEntries p := by simpa [Env.chain] using hnames
  exact h.entries q hq

end Analysis

end NumericScript
