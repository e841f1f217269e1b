import NumericScript.Machine
import NumericScript.Proofs.Analysis.Names
import NumericScript.Proofs.Lowering.Rules

/-! # Points of a program

At every point of an annotated program some variables are in sight, those that others hide among
them.  Which ones can be read off the tree: blocks, functions and counting loops open scopes, and
declarations add to the innermost one.

* `Program.sites`: the points of a program, with what is in sight and the names that stand there.
* `Env.Sound`: what holds wherever analysis has come, and `Declares.sound`: declarations keep it.
* `Env.Sound.pairwise_write`: writing to a variable leaves all others in the open scopes. -/

namespace NumericScript

open Analysis (Env)

namespace Analysis

/-- The variable that a name stands for, if it stands for one. -/
def Entry.binding? : Entry → Option Binding
  | .var b => some b
  | .function _ _ => none

namespace Env

/-- The variables that the open scopes declare, those that are hidden among them. -/
def bindings (Γ : Env) : List Binding := Γ.chain.flatten.filterMap fun q => q.2.binding?

/-- The slots of the local variables that the open scopes declare. -/
def localSlots (Γ : Env) : List String :=
  (Γ.bindings.filter fun b => b.storage = .local).map (·.slot)

/-- Adds a variable that is declared. -/
def declare (Γ : Env) (x : Name) : Env :=
  match x.binding with
  | some b => Γ.add x.text (.var b)
  | none => Γ

/-- What is in sight behind a statement. -/
def behind (Γ : Env) : Stmt → Env
  | .decl _ x _ _ => Γ.declare x
  | _ => Γ

end Env

end Analysis

/-- A point of a program. -/
structure Site where
  /-- What is in sight. -/
  env : Env
  /-- The names that stand there for variables. -/
  refs : List Name

/-- The points behind each of some parameters. -/
def Param.sites (Γ : Env) : List Param → List Site
  | [] => []
  | p :: ps => ⟨Γ.declare p.name, [p.name]⟩ :: Param.sites (Γ.declare p.name) ps

mutual

/-- The points in a statement.  A variable is in sight behind its declaration, where its own name
stands for it. -/
def Stmt.sites (Γ : Env) : Stmt → List Site
  | .decl _ x _ init => [⟨Γ, init.names⟩, ⟨Γ.declare x, [x]⟩]
  | .assign _ x none value => [⟨Γ, x :: value.names⟩]
  | .assign _ x (some s) value =>
    [⟨Γ, x :: (s.row.names ++ Expr.optionalNames s.col ++ value.names)⟩]
  | .function _ _ _ params body =>
    Param.sites Γ.enter params ++
      Stmt.blockSites (params.foldl (fun Γ p => Γ.declare p.name) Γ.enter) body
  | .cond _ e body none => ⟨Γ, e.names⟩ :: Stmt.blockSites Γ.enter body
  | .cond _ e body (some orElse) =>
    ⟨Γ, e.names⟩ :: (Stmt.blockSites Γ.enter body ++ Stmt.blockSites Γ.enter orElse)
  | .while _ e body => ⟨Γ, e.names⟩ :: Stmt.blockSites Γ.enter body
  | .repeat _ count body => ⟨Γ, count.names⟩ :: Stmt.blockSites Γ.enter body
  | .for _ init e update body =>
    Stmt.sites Γ.enter init ++ ⟨Γ.enter.behind init, e.names⟩ ::
      (Stmt.sites (Γ.enter.behind init) update ++
        Stmt.blockSites ((Γ.enter.behind init).behind update).enter body)
  | .break _ | .continue _ => [⟨Γ, []⟩]
  | .return _ value => [⟨Γ, Expr.optionalNames value⟩]
  | .print _ values => [⟨Γ, Expr.allNames values⟩]
  | .input _ x => [⟨Γ, [x]⟩]
  | .expr _ e => [⟨Γ, e.names⟩]

/-- The points in statements, and the one behind them. -/
def Stmt.blockSites (Γ : Env) : List Stmt → List Site
  | [] => [⟨Γ, []⟩]
  | st :: ss => Stmt.sites Γ st ++ Stmt.blockSites (Γ.behind st) ss

end

/-- The points of a program.  All its functions are in sight from the beginning. -/
def Program.sites (p : Program) : List Site :=
  Stmt.blockSites ⟨[], Analysis.functionEntries p⟩ p

/-! ### The names of a program -/

theorem Param.mem_refs_sites {x : Name} : ∀ (ps : List Param) (Γ : Env),
    x ∈ (Param.sites Γ ps).flatMap Site.refs ↔ x ∈ ps.map (·.name)
  | [], _ => Iff.rfl
  | p :: ps, Γ => by
    simp only [Param.sites, List.flatMap_cons, List.singleton_append, List.map_cons, List.mem_cons,
      Param.mem_refs_sites ps]

mutual

theorem Stmt.mem_refs_sites {x : Name} (st : Stmt) :
    ∀ Γ : Env, x ∈ (st.sites Γ).flatMap Site.refs ↔ x ∈ st.names := by
  intro Γ
  cases st with
  | decl loc y declared init =>
    simp [Stmt.sites, Stmt.names, or_comm]
  | assign loc y sub value => cases sub <;> simp [Stmt.sites, Stmt.names]
  | function loc f returns params body =>
    simp only [Stmt.sites, Stmt.names, List.flatMap_append, List.mem_append,
      Param.mem_refs_sites, Stmt.mem_refs_blockSites body]
  | cond loc e body orElse =>
    cases orElse with
    | none =>
      simp only [Stmt.sites, Stmt.names, List.flatMap_cons, List.mem_append,
        Stmt.mem_refs_blockSites body]
    | some orElse =>
      simp only [Stmt.sites, Stmt.names, List.flatMap_cons, List.flatMap_append, List.mem_append,
        Stmt.mem_refs_blockSites body, Stmt.mem_refs_blockSites orElse, or_assoc]
  | «while» loc e body =>
    simp only [Stmt.sites, Stmt.names, List.flatMap_cons, List.mem_append,
      Stmt.mem_refs_blockSites body]
  | «repeat» loc count body =>
    simp only [Stmt.sites, Stmt.names, List.flatMap_cons, List.mem_append,
      Stmt.mem_refs_blockSites body]
  | «for» loc init e update body =>
    simp only [Stmt.sites, Stmt.names, List.flatMap_cons, List.flatMap_append, List.mem_append,
      Stmt.mem_refs_sites init, Stmt.mem_refs_sites update, Stmt.mem_refs_blockSites body,
      or_assoc]
  | _ => simp [Stmt.sites, Stmt.names]
termination_by structural st

theorem Stmt.mem_refs_blockSites {x : Name} (ss : List Stmt) :
    ∀ Γ : Env, x ∈ (Stmt.blockSites Γ ss).flatMap Site.refs ↔ x ∈ Stmt.allNames ss := by
  intro Γ
  cases ss with
  | nil => simp [Stmt.blockSites, Stmt.allNames]
  | cons st ss =>
    simp only [Stmt.blockSites, Stmt.allNames, List.flatMap_append, List.mem_append,
      Stmt.mem_refs_sites st, Stmt.mem_refs_blockSites ss]
termination_by structural ss

end

/-- Every name of a program stands at a point of it. -/
theorem Program.mem_refs_sites {x : Name} (p : Program) :
    x ∈ p.sites.flatMap Site.refs ↔ x ∈ p.names := Stmt.mem_refs_blockSites p _

/-! ### Places -/

namespace Analysis

variable {Γ Γ' : Env} {k k' : Nat} {x : Name} {t : Ty}

namespace Env

theorem flatten_chain_add (Γ : Env) (y : String) (e : Entry) :
    (Γ.add y e).chain.flatten = (y, e) :: Γ.chain.flatten := by
  unfold add chain
  cases Γ.inner <;> simp

/-- Slots are as they have to be, and no two variables in the open scopes are the same. -/
structure Sound (Γ : Env) (k : Nat) : Prop where
  slotted : Γ.Slotted k
  distinct : (Γ.bindings.map Binding.variable).Nodup

theorem Sound.mono (h : Γ.Sound k) (hk : k ≤ k') : Γ.Sound k' := ⟨h.slotted.mono hk, h.distinct⟩

theorem Sound.enter (h : Γ.Sound k) : Γ.enter.Sound k := ⟨h.slotted.enter, h.distinct⟩

theorem mem_bindings {b : Binding} :
    b ∈ Γ.bindings ↔ ∃ names ∈ Γ.chain, ∃ y, (y, Entry.var b) ∈ names := by
  simp only [bindings, List.mem_filterMap, List.mem_flatten]
  constructor
  · rintro ⟨⟨y, e⟩, ⟨names, hnames, hq⟩, he⟩
    cases e <;> cases he
    exact ⟨names, hnames, y, hq⟩
  · rintro ⟨names, hnames, y, hq⟩
    exact ⟨(y, .var b), ⟨names, hnames, hq⟩, rfl⟩

theorem Sound.pairwise_ne (h : Γ.Sound k) :
    Γ.bindings.Pairwise fun b b' => b.variable ≠ b'.variable := List.pairwise_map.1 h.distinct

theorem Sound.nodup_localSlots (h : Γ.Sound k) : Γ.localSlots.Nodup := by
  refine List.pairwise_map.2 (List.pairwise_filter.2 (h.pairwise_ne.imp ?_))
  rintro ⟨slot, t, storage⟩ ⟨slot', t', storage'⟩ hne hb hb' hslot
  obtain rfl : storage = .local := by simpa using hb
  obtain rfl : storage' = .local := by simpa using hb'
  obtain rfl : slot = slot' := hslot
  exact hne rfl

/-- Writing to a variable in an open scope leaves all others. -/
theorem Sound.pairwise_write (h : Γ.Sound k) : Γ.bindings.Pairwise fun b b' =>
    ∀ (m : Machine) (v : Value),
      (m.write (.var b.variable) v).read? (.var b'.variable) = m.read? (.var b'.variable) ∧
      (m.write (.var b'.variable) v).read? (.var b.variable) = m.read? (.var b.variable) := by
  refine h.pairwise_ne.imp fun {b b'} hne m v => ⟨?_, ?_⟩
  · rw [Machine.read?_write, if_neg (by simpa using hne)]
  · rw [Machine.read?_write, if_neg (by simpa using hne.symm)]

end Env

/-- A new variable is none of those in the open scopes. -/
theorem Declares.not_mem_bindings (h : Γ.Slotted k) (hx : Declares Γ k x t Γ' k') :
    (⟨Γ.slot k x.text, Γ.storage⟩ : Variable) ∉ Γ.bindings.map Binding.variable := by
  intro hmem
  obtain ⟨⟨slot, u, storage⟩, hb, he⟩ := List.mem_map.1 hmem
  obtain ⟨rfl, rfl⟩ : slot = Γ.slot k x.text ∧ storage = Γ.storage := by
    simpa [Binding.variable] using he
  obtain ⟨names, hnames, y, hq⟩ := Env.mem_bindings.1 hb
  cases hg : Γ.isGlobal with
  | true =>
    -- At top level a variable lives under its name, which is new there.
    have hinner : Γ.inner = [] := List.isEmpty_iff.1 hg
    obtain rfl : names = Γ.root := by simpa [Env.chain, hinner] using hnames
    have hslot : Γ.slot k x.text = y := (h.root _ hq _ rfl).1
    have hname : Γ.slot k x.text = x.text := by simp [Env.slot, Env.hides, hg]
    have hfresh := hx.fresh
    rw [Env.current, hinner] at hfresh
    have hne := List.lookup_eq_none_iff.1 hfresh _ hq
    simp [← hslot, hname] at hne
  | false =>
    have hstorage : Γ.storage = .local := by rw [Env.storage, hg]; rfl
    rw [hstorage] at hq
    have hnone := hx.locals_slot h hg
    have hsome := List.findSome?_eq_none_iff.1 hnone (y, .var ⟨Γ.slot k x.text, u, .local⟩)
      (List.mem_flatten.2 ⟨names, hnames, hq⟩)
    simp [Entry.localTy?] at hsome

theorem Declares.sound (h : Γ.Sound k) (hx : Declares Γ k x t Γ' k') : Γ'.Sound k' := by
  refine ⟨hx.slotted h.slotted, ?_⟩
  have hbindings : Γ'.bindings = ⟨Γ.slot k x.text, t, Γ.storage⟩ :: Γ.bindings := by
    rw [hx.env, Env.bindings, Env.flatten_chain_add]
    rfl
  rw [hbindings]
  exact List.nodup_cons.2 ⟨hx.not_mem_bindings h.slotted, h.distinct⟩

/-- A declaration adds what its name is bound to. -/
theorem Declares.env_eq (hx : Declares Γ k x t Γ' k') : Γ' = Γ.declare x := by
  rw [hx.env, Env.declare, hx.binding]

/-- Behind its declaration a name stands for the variable declared. -/
theorem Declares.bound (hx : Declares Γ k x t Γ' k') :
    Bound Γ' x ⟨Γ.slot k x.text, t, Γ.storage⟩ := by
  refine ⟨?_, hx.binding⟩
  rw [hx.env]
  unfold Env.add Env.find? Env.chain
  cases Γ.inner <;> simp

theorem sound_functionEntries (p : Program) : (⟨[], functionEntries p⟩ : Env).Sound 0 := by
  refine ⟨slotted_functionEntries p, ?_⟩
  have hnone : (⟨[], functionEntries p⟩ : Env).bindings = [] := by
    refine List.filterMap_eq_nil_iff.2 fun q hq => ?_
    obtain ⟨params, returns, he⟩ := exists_of_mem_functionEntries (p := p) (q := q)
      (by simpa [Env.chain] using hq)
    rw [he]
    rfl
  rw [hnone]
  exact List.nodup_nil

end Analysis

end NumericScript
