import NumericScript.Proofs.Analysis.Proper

/-! # Slots

The slot of a local variable is different from those of all others in sight, also of those that
are hidden.  Declaring a variable therefore leaves what is known of the contents of slots as it
was.

* `Env.locals`, `Env.Slotted`: the slots of what is in sight, and that they are distinct.
* `Declares.locals_slot`: a new variable has a new slot.
* `StmtTyped.slotted`, `StmtTyped.locals_le`: slots stay distinct from statement to statement, and
  what is known of them stays known. -/

namespace NumericScript

namespace Analysis

/-! ### Contents of slots -/

/-- The type of a local variable that lives in a slot. -/
def Entry.localTy? (slot : String) : Entry → Option Ty
  | .var ⟨slot', t, .local⟩ => if slot' = slot then some t else none
  | _ => none

namespace Env

/-- The type of the local variable in sight that lives in a slot. -/
def locals (Γ : Env) (slot : String) : Option Ty :=
  Γ.chain.flatten.findSome? fun q => q.2.localTy? slot

/-- A slot made for a variable: its name, or if it hides another variable its name with a number
behind it that was not used before. -/
def IsSlot (x : String) (k : Nat) (slot : String) : Prop :=
  slot = x ∨ ∃ j, j < k ∧ slot = x ++ "#" ++ toString (j + 1)

/-- Slots are distinct: a slot belongs to one local variable, and global variables live under
their names. -/
structure Slotted (Γ : Env) (k : Nat) : Prop where
  inner : ∀ names ∈ Γ.inner, ∀ q ∈ names, '#' ∉ q.1.toList ∧ ∃ slot t,
    q.2 = .var ⟨slot, t, .local⟩ ∧ IsSlot q.1 k slot ∧ Γ.locals slot = some t
  root : ∀ q ∈ Γ.root, ∀ b, q.2 = .var b → b.slot = q.1 ∧ b.storage = .global

end Env

section

variable {Γ Γ' : Env} {k k' : Nat} {x : Name} {t : Ty} {slot : String}

theorem Env.locals_enter (Γ : Env) : Γ.enter.locals = Γ.locals := rfl

/-- What the entries of scopes say of a slot. -/
theorem Env.exists_of_locals (h : Γ.Slotted k) (hs : Γ.locals slot = some t) :
    ∃ y, '#' ∉ y.toList ∧ IsSlot y k slot ∧
      ∃ names ∈ Γ.inner, (y, Entry.var ⟨slot, t, .local⟩) ∈ names := by
  obtain ⟨q, hq, hty⟩ := List.exists_of_findSome?_eq_some hs
  obtain ⟨names, hnames, hqn⟩ := List.mem_flatten.1 hq
  rcases List.mem_append.1 hnames with hinner | hroot
  · obtain ⟨hplain, slot', t', he, hslot, -⟩ := h.inner names hinner q hqn
    obtain ⟨y, e⟩ := q
    dsimp only at he hplain hslot hty
    subst he
    unfold Entry.localTy? at hty
    dsimp only at hty
    split at hty <;> cases hty
    rename_i heq
    subst heq
    exact ⟨y, hplain, hslot, names, hinner, hqn⟩
  · obtain rfl := List.mem_singleton.1 hroot
    obtain ⟨y, e⟩ := q
    cases e with
    | function params returns => cases hty
    | var b =>
      obtain ⟨-, hglobal⟩ := h.root _ hqn b rfl
      obtain ⟨slot', t', storage⟩ := b
      dsimp only at hglobal
      subst hglobal
      cases hty

theorem Env.Slotted.mono (h : Γ.Slotted k) (hk : k ≤ k') : Γ.Slotted k' := by
  refine ⟨fun names hnames q hq => ?_, h.root⟩
  obtain ⟨hplain, slot, t, he, hslot, ht⟩ := h.inner names hnames q hq
  refine ⟨hplain, slot, t, he, ?_, ht⟩
  rcases hslot with hslot | ⟨j, hj, hslot⟩
  · exact .inl hslot
  · exact .inr ⟨j, Nat.lt_of_lt_of_le hj hk, hslot⟩

theorem Env.Slotted.enter (h : Γ.Slotted k) : Γ.enter.Slotted k := by
  refine ⟨fun names hnames q hq => ?_, h.root⟩
  rcases List.mem_cons.1 hnames with rfl | hnames
  · cases hq
  · exact h.inner names hnames q hq

/-! ### New slots -/

theorem eq_of_append_hash {xs ys zs ws : List Char} (hx : '#' ∉ xs) (hy : '#' ∉ ys)
    (h : xs ++ '#' :: zs = ys ++ '#' :: ws) : zs = ws := by
  induction xs generalizing ys with
  | nil =>
    cases ys with
    | nil => exact (List.cons.inj h).2
    | cons y ys =>
      obtain rfl : '#' = y := (List.cons.inj h).1
      exact absurd List.mem_cons_self hy
  | cons x xs ih =>
    cases ys with
    | nil =>
      obtain rfl : x = '#' := (List.cons.inj h).1
      exact absurd List.mem_cons_self hx
    | cons y ys =>
      exact ih (List.not_mem_of_not_mem_cons hx) (List.not_mem_of_not_mem_cons hy)
        (List.cons.inj h).2

/-- A name with a number is no name, and no name with another number. -/
theorem toList_numbered (x : String) (n : Nat) :
    (x ++ "#" ++ toString n).toList = x.toList ++ '#' :: (Nat.repr n).toList := by
  rw [String.toList_append, String.toList_append, List.append_assoc]
  rfl

theorem mem_toList_numbered (x : String) (n : Nat) : '#' ∈ (x ++ "#" ++ toString n).toList := by
  rw [toList_numbered]
  simp

theorem eq_of_numbered {x y : String} {m n : Nat} (hx : '#' ∉ x.toList) (hy : '#' ∉ y.toList)
    (h : x ++ "#" ++ toString m = y ++ "#" ++ toString n) : m = n := by
  have hlist := congrArg String.toList h
  rw [toList_numbered, toList_numbered] at hlist
  have hdigits := congrArg (fun ds => Nat.ofDigitChars 10 ds 0) (eq_of_append_hash hx hy hlist)
  simpa [Nat.repr] using hdigits

/-! ### Declarations -/

theorem Env.isGlobal_enter (Γ : Env) : Γ.enter.isGlobal = false := rfl

theorem Declares.isGlobal (hx : Declares Γ k x t Γ' k') : Γ'.isGlobal = Γ.isGlobal := by
  rw [hx.env]
  unfold Env.add Env.isGlobal
  cases Γ.inner <;> rfl

/-- Where no local variable of a name hides the new one, none has the name. -/
theorem find?_of_mem (h : Γ.Slotted k) {y : String} {names : Names} {e : Entry}
    (hnames : names ∈ Γ.inner) (hy : (y, e) ∈ names) : (Γ.find? y).any Entry.isLocal = true := by
  have hinner : ∀ scopes : List Names, (∀ ns ∈ scopes, ns ∈ Γ.inner) → names ∈ scopes →
      ∀ more, ((scopes ++ more).findSome? (·.lookup y)).any Entry.isLocal = true := by
    intro scopes hsub hmem more
    induction scopes with
    | nil => cases hmem
    | cons ns scopes ih =>
      rw [List.cons_append, List.findSome?_cons]
      cases hl : ns.lookup y with
      | some e' =>
        obtain ⟨-, slot, t, he, -, -⟩ := h.inner ns (hsub ns List.mem_cons_self) _
          (mem_of_lookup hl)
        dsimp only at he
        rw [he]
        rfl
      | none =>
        have hne : names ≠ ns := by
          rintro rfl
          rw [List.lookup_eq_none_iff] at hl
          exact absurd (hl _ hy) (by simp)
        have hmem := (List.mem_cons.1 hmem).resolve_left hne
        exact ih (fun ns hns => hsub ns (List.mem_cons_of_mem _ hns)) hmem
  exact hinner Γ.inner (fun _ h => h) hnames [Γ.root]

/-- A new local variable has a new slot. -/
theorem Declares.locals_slot (h : Γ.Slotted k) (hx : Declares Γ k x t Γ' k')
    (hlocal : Γ.isGlobal = false) : Γ.locals (Γ.slot k x.text) = none := by
  rw [Option.eq_none_iff_forall_ne_some]
  intro u hu
  obtain ⟨y, hplain, hslot, names, hnames, hy⟩ := Env.exists_of_locals h hu
  have hxplain : '#' ∉ x.text.toList := hx.plain
  unfold Env.slot at hslot
  by_cases hhides : Γ.hides x.text = true
  · rw [if_pos hhides] at hslot
    rcases hslot with hname | ⟨j, hj, hnumber⟩
    · exact hplain (hname ▸ mem_toList_numbered _ _)
    · have hk := eq_of_numbered hxplain hplain hnumber
      omega
  · rw [if_neg hhides] at hslot
    rcases hslot with hname | ⟨j, hj, hnumber⟩
    · rw [← hname] at hy
      have hfound := find?_of_mem h hnames hy
      exact hhides (by simp [Env.hides, hlocal, hfound])
    · exact hxplain (hnumber ▸ mem_toList_numbered _ _)

theorem Declares.locals_of_isGlobal (hx : Declares Γ k x t Γ' k') (hg : Γ.isGlobal = true) :
    Γ'.locals = Γ.locals := by
  have hinner : Γ.inner = [] := List.isEmpty_iff.1 hg
  funext slot
  rw [hx.env]
  simp [Env.locals, Env.add, hinner, Env.chain, Env.storage, hg, Entry.localTy?]

theorem Declares.locals_of_isLocal (hx : Declares Γ k x t Γ' k') (hlocal : Γ.isGlobal = false) :
    Γ'.locals = fun slot => if Γ.slot k x.text = slot then some t else Γ.locals slot := by
  funext slot
  rw [hx.env]
  unfold Env.add
  cases hinner : Γ.inner with
  | nil =>
    rw [Env.isGlobal, hinner] at hlocal
    cases hlocal
  | cons names outer =>
    have hstorage : Γ.storage = .local := by rw [Env.storage, hlocal]; rfl
    simp only [Env.locals, Env.chain, hinner, List.cons_append, List.flatten_cons,
      List.findSome?_cons, hstorage, Entry.localTy?]
    by_cases hslot : Γ.slot k x.text = slot
    · simp only [hslot, if_true]
    · simp only [hslot, if_false]

theorem Declares.shadows_le (hx : Declares Γ k x t Γ' k') : k ≤ k' := by
  rw [hx.shadows, Env.shadows]
  split <;> omega

/-- What is known of the contents of slots stays known. -/
theorem Declares.locals_le (h : Γ.Slotted k) (hx : Declares Γ k x t Γ' k') {u : Ty}
    (hs : Γ.locals slot = some u) : Γ'.locals slot = some u := by
  cases hg : Γ.isGlobal with
  | true => rw [hx.locals_of_isGlobal hg, hs]
  | false =>
    have hfresh := hx.locals_slot h hg
    rw [hx.locals_of_isLocal hg]
    dsimp only
    rw [if_neg, hs]
    rintro rfl
    rw [hfresh] at hs
    cases hs

theorem Declares.isSlot (hx : Declares Γ k x t Γ' k') :
    Env.IsSlot x.text k' (Γ.slot k x.text) := by
  rw [hx.shadows]
  unfold Env.slot Env.shadows
  split
  · exact .inr ⟨k, Nat.lt_succ_self k, rfl⟩
  · exact .inl rfl

theorem Declares.slotted (h : Γ.Slotted k) (hx : Declares Γ k x t Γ' k') : Γ'.Slotted k' := by
  have hold : ∀ names ∈ Γ.inner, ∀ q ∈ names, '#' ∉ q.1.toList ∧ ∃ slot t,
      q.2 = .var ⟨slot, t, .local⟩ ∧ Env.IsSlot q.1 k' slot ∧ Γ'.locals slot = some t := by
    intro names hnames q hq
    obtain ⟨hplain, slot, u, he, hslot, hu⟩ := (h.mono hx.shadows_le).inner names hnames q hq
    exact ⟨hplain, slot, u, he, hslot, hx.locals_le h hu⟩
  cases hg : Γ.isGlobal with
  | true =>
    have hinner : Γ.inner = [] := List.isEmpty_iff.1 hg
    have henv : Γ' = ⟨[], (x.text, .var ⟨Γ.slot k x.text, t, Γ.storage⟩) :: Γ.root⟩ := by
      rw [hx.env, Env.add, hinner]
    refine ⟨fun names hnames => ?_, fun q hq b hb => ?_⟩
    · rw [henv] at hnames
      cases hnames
    · rw [henv] at hq
      rcases List.mem_cons.1 hq with rfl | hq
      · cases hb
        simp [Env.slot, Env.hides, Env.storage, hg]
      · exact h.root q hq b hb
  | false =>
    cases hinner : Γ.inner with
    | nil =>
      rw [Env.isGlobal, hinner] at hg
      cases hg
    | cons first outer =>
      have hstorage : Γ.storage = .local := by rw [Env.storage, hg]; rfl
      have henv : Γ' =
          { Γ with inner := ((x.text, .var ⟨Γ.slot k x.text, t, .local⟩) :: first) :: outer } := by
        rw [hx.env, Env.add, hinner, hstorage]
      refine ⟨fun names hnames q hq => ?_, ?_⟩
      · rw [henv] at hnames
        rcases List.mem_cons.1 hnames with rfl | hnames
        · rcases List.mem_cons.1 hq with rfl | hq
          · refine ⟨hx.plain, _, t, rfl, hx.isSlot, ?_⟩
            rw [hx.locals_of_isLocal hg]
            exact if_pos rfl
          · exact hold first (by simp [hinner]) q hq
        · exact hold names (by simp [hinner, hnames]) q hq
      · rw [henv]
        exact h.root

/-! ### Statements -/

section

variable {σ : Scene}

theorem StmtTyped.slotted {st : Stmt} (hs : StmtTyped σ Γ k st Γ' k') (h : Γ.Slotted k)
    (hk : k ≤ k') : Γ'.Slotted k' := by
  cases hs with
  | decl hw hi ht hx => exact hx.slotted h
  | _ => exact h.mono hk

theorem StmtTyped.locals_le {st : Stmt} (hs : StmtTyped σ Γ k st Γ' k') (h : Γ.Slotted k) {u : Ty}
    (hu : Γ.locals slot = some u) : Γ'.locals slot = some u := by
  cases hs with
  | decl hw hi ht hx => exact hx.locals_le h hu
  | _ => exact hu

end

mutual

/-- More and more variables have hidden others. -/
theorem StmtTyped.shadows_le (st : Stmt) : ∀ {σ : Scene} {Γ Γ' : Env} {k k' : Nat},
    StmtTyped σ Γ k st Γ' k' → k ≤ k' := by
  intro σ Γ Γ' k k' hs
  cases hs with
  | decl hw hi ht hx => exact hx.shadows_le
  | cond he hb => exact BlockTyped.shadows_le _ hb
  | branch he hb ho => exact Nat.le_trans (BlockTyped.shadows_le _ hb) (BlockTyped.shadows_le _ ho)
  | «while» he hb => exact BlockTyped.shadows_le _ hb
  | «repeat» he ht hb => exact BlockTyped.shadows_le _ hb
  | «for» hs hi he hsu hnd hu hb =>
    have hinit := StmtTyped.shadows_le _ hi
    have hupdate := StmtTyped.shadows_le _ hu
    have hbody := BlockTyped.shadows_le _ hb
    exact Nat.le_trans (Nat.le_trans hinit hupdate) hbody
  | _ => exact Nat.le_refl _
termination_by structural st

theorem BlockTyped.shadows_le (ss : List Stmt) : ∀ {σ : Scene} {Γ Γ' : Env} {k k' : Nat},
    BlockTyped σ Γ k ss Γ' k' → k ≤ k' := by
  intro σ Γ Γ' k k' hss
  cases hss with
  | nil => exact Nat.le_refl _
  | cons hs hss => exact Nat.le_trans (StmtTyped.shadows_le _ hs) (BlockTyped.shadows_le _ hss)
termination_by structural ss

end

theorem BlockTyped.slotted {σ : Scene} {ss : List Stmt} : ∀ {Γ : Env} {k : Nat},
    BlockTyped σ Γ k ss Γ' k' → Γ.Slotted k → Γ'.Slotted k' := by
  induction ss with
  | nil =>
    intro Γ k hss h
    cases hss
    exact h
  | cons st ss ih =>
    intro Γ k hss h
    cases hss with
    | cons hs hss => exact ih hss (hs.slotted h (StmtTyped.shadows_le _ hs))

theorem BlockTyped.locals_le {σ : Scene} {ss : List Stmt} {u : Ty} : ∀ {Γ : Env} {k : Nat},
    BlockTyped σ Γ k ss Γ' k' → Γ.Slotted k → Γ.locals slot = some u → Γ'.locals slot = some u := by
  induction ss with
  | nil =>
    intro Γ k hss h hu
    cases hss
    exact hu
  | cons st ss ih =>
    intro Γ k hss h hu
    cases hss with
    | cons hs hss =>
      exact ih hss (hs.slotted h (StmtTyped.shadows_le _ hs)) (hs.locals_le h hu)

theorem ParamsTyped.slotted {ps : List Param} : ∀ {Γ : Env} {k : Nat},
    ParamsTyped Γ k ps Γ' k' → Γ.Slotted k → Γ'.Slotted k' := by
  induction ps with
  | nil =>
    intro Γ k hps h
    cases hps
    exact h
  | cons p ps ih =>
    intro Γ k hps h
    cases hps with
    | cons hp hw hx hps => exact ih hps (hx.slotted h)

theorem ParamsTyped.shadows_le {ps : List Param} : ∀ {Γ : Env} {k : Nat},
    ParamsTyped Γ k ps Γ' k' → k ≤ k' := by
  induction ps with
  | nil =>
    intro Γ k h
    cases h
    exact Nat.le_refl _
  | cons p ps ih =>
    intro Γ k h
    cases h with
    | cons hp hw hx hps => exact Nat.le_trans hx.shadows_le (ih hps)

theorem exists_of_mem_functionEntries {p : Program} {q : String × Entry}
    (h : q ∈ functionEntries p) : ∃ params returns, q.2 = .function params returns := by
  obtain ⟨st, -, hst⟩ := List.mem_filterMap.1 (List.mem_reverse.1 h)
  cases st with
  | function loc f returns params body =>
    cases hst
    exact ⟨_, _, rfl⟩
  | _ => cases hst

theorem slotted_functionEntries (p : Program) : (⟨[], functionEntries p⟩ : Env).Slotted 0 where
  inner := fun names hnames => by cases hnames
  root := by
    intro q hq b hb
    obtain ⟨params, returns, he⟩ := exists_of_mem_functionEntries hq
    rw [hb] at he
    cases he

theorem locals_functionEntries (p : Program) (slot : String) :
    (⟨[], functionEntries p⟩ : Env).locals slot = none := by
  refine List.findSome?_eq_none_iff.2 fun q hq => ?_
  have hmem : q ∈ functionEntries p := by simpa [Env.chain] using hq
  obtain ⟨params, returns, he⟩ := exists_of_mem_functionEntries hmem
  rw [he]
  rfl

/-! ### Variables in sight -/

/-- The types of the global variables in sight. -/
def Env.Roots (Γ : Env) (globals : String → Option Ty) : Prop :=
  ∀ y b, Γ.root.lookup y = some (.var b) → globals y = some b.ty

theorem Env.Slotted.bound_local (h : Γ.Slotted k) {b : Binding} (hx : Bound Γ x b)
    (hb : b.storage = .local) : Γ.locals b.slot = some b.ty := by
  obtain ⟨names, hnames, hl⟩ := List.exists_of_findSome?_eq_some hx.found
  have hmem := mem_of_lookup hl
  rcases List.mem_append.1 hnames with hinner | hroot
  · obtain ⟨-, slot, t, he, -, ht⟩ := h.inner names hinner _ hmem
    cases he
    exact ht
  · obtain rfl := List.mem_singleton.1 hroot
    have hglobal := (h.root _ hmem b rfl).2
    rw [hb] at hglobal
    cases hglobal

theorem Env.Slotted.bound_global (h : Γ.Slotted k) {b : Binding} (hx : Bound Γ x b)
    (hb : b.storage = .global) {globals : String → Option Ty} (hr : Γ.Roots globals) :
    globals b.slot = some b.ty := by
  have hfind : Γ.chain.findSome? (·.lookup x.text) = some (.var b) := hx.found
  rw [Env.chain, List.findSome?_append] at hfind
  rcases Option.or_eq_some_iff.1 hfind with hinner | ⟨-, hroot⟩
  · obtain ⟨names, hnames, hl⟩ := List.exists_of_findSome?_eq_some hinner
    obtain ⟨-, slot, t, he, -, -⟩ := h.inner names hnames _ (mem_of_lookup hl)
    cases he
    cases hb
  · have hl : Γ.root.lookup x.text = some (.var b) := by simpa using hroot
    have hslot := (h.root _ (mem_of_lookup hl) b rfl).1
    dsimp only at hslot
    rw [hslot]
    exact hr _ _ hl

section

variable {globals : String → Option Ty}

theorem Env.Roots.enter (h : Γ.Roots globals) : Γ.enter.Roots globals := h

theorem Declares.root_of_isLocal (hx : Declares Γ k x t Γ' k') (hlocal : Γ.isGlobal = false) :
    Γ'.root = Γ.root := by
  rw [hx.env, Env.add]
  cases hinner : Γ.inner with
  | nil =>
    rw [Env.isGlobal, hinner] at hlocal
    cases hlocal
  | cons names outer => rfl

/-- What is in sight after a declaration was so before it, but for the new variable. -/
theorem Declares.roots (hx : Declares Γ k x t Γ' k') (h : Γ'.Roots globals) :
    Γ.Roots globals := by
  cases hg : Γ.isGlobal with
  | false =>
    have hroot := hx.root_of_isLocal hg
    exact fun y b hy => h y b (by rw [hroot, hy])
  | true =>
    have hinner : Γ.inner = [] := List.isEmpty_iff.1 hg
    have hfresh := hx.fresh
    rw [Env.current, hinner] at hfresh
    have hroot : Γ.root.lookup x.text = none := hfresh
    intro y b hy
    refine h y b ?_
    rw [hx.env, Env.add, hinner]
    dsimp only
    rw [List.lookup_cons]
    cases hxy : y == x.text with
    | true =>
      rw [beq_iff_eq.1 hxy, hroot] at hy
      cases hy
    | false => exact hy

/-- A global variable that is declared is among those that are known. -/
theorem Declares.roots_slot (hx : Declares Γ k x t Γ' k') (hg : Γ.isGlobal = true)
    (h : Γ'.Roots globals) : globals (Γ.slot k x.text) = some t := by
  have hinner : Γ.inner = [] := List.isEmpty_iff.1 hg
  have hslot : Γ.slot k x.text = x.text := by simp [Env.slot, Env.hides, hg]
  have hfound : Γ'.root.lookup x.text = some (.var ⟨Γ.slot k x.text, t, Γ.storage⟩) := by
    rw [hx.env, Env.add, hinner]
    exact List.lookup_cons_self
  have hty := h _ _ hfound
  rw [hslot]
  exact hty

theorem StmtTyped.roots {σ : Scene} {st : Stmt} (hs : StmtTyped σ Γ k st Γ' k')
    (h : Γ'.Roots globals) : Γ.Roots globals := by
  cases hs with
  | decl hw hi ht hx => exact hx.roots h
  | _ => exact h

theorem BlockTyped.roots {σ : Scene} {ss : List Stmt} : ∀ {Γ : Env} {k : Nat},
    BlockTyped σ Γ k ss Γ' k' → Γ'.Roots globals → Γ.Roots globals := by
  induction ss with
  | nil =>
    intro Γ k hss h
    cases hss
    exact h
  | cons st ss ih =>
    intro Γ k hss h
    cases hss with
    | cons hs hss => exact hs.roots (ih hss h)

theorem StmtTyped.root_of_isLocal {σ : Scene} {st : Stmt} (hs : StmtTyped σ Γ k st Γ' k')
    (hlocal : Γ.isGlobal = false) : Γ'.root = Γ.root ∧ Γ'.isGlobal = false := by
  cases hs with
  | decl hw hi ht hx => exact ⟨hx.root_of_isLocal hlocal, hx.isGlobal.trans hlocal⟩
  | _ => exact ⟨rfl, hlocal⟩

/-- The statements of a block do not declare global variables. -/
theorem BlockTyped.root_of_isLocal {σ : Scene} {ss : List Stmt} : ∀ {Γ : Env} {k : Nat},
    BlockTyped σ Γ k ss Γ' k' → Γ.isGlobal = false → Γ'.root = Γ.root ∧ Γ'.isGlobal = false := by
  induction ss with
  | nil =>
    intro Γ k hss hlocal
    cases hss
    exact ⟨rfl, hlocal⟩
  | cons st ss ih =>
    intro Γ k hss hlocal
    cases hss with
    | cons hs hss =>
      obtain ⟨hroot, hlocal₁⟩ := hs.root_of_isLocal hlocal
      obtain ⟨hroot', hlocal'⟩ := ih hss hlocal₁
      exact ⟨hroot'.trans hroot, hlocal'⟩

theorem ParamsTyped.root_of_isLocal {ps : List Param} : ∀ {Γ : Env} {k : Nat},
    ParamsTyped Γ k ps Γ' k' → Γ.isGlobal = false → Γ'.root = Γ.root ∧ Γ'.isGlobal = false := by
  induction ps with
  | nil =>
    intro Γ k hps hlocal
    cases hps
    exact ⟨rfl, hlocal⟩
  | cons p ps ih =>
    intro Γ k hps hlocal
    cases hps with
    | cons hp hw hx hps =>
      obtain ⟨hroot', hlocal'⟩ := ih hps (hx.isGlobal.trans hlocal)
      exact ⟨hroot'.trans (hx.root_of_isLocal hlocal), hlocal'⟩

end

end

end Analysis

end NumericScript
