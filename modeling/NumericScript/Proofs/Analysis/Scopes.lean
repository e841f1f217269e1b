import Mathlib.Data.List.Forall2
import NumericScript.Proofs.Analysis.Rules

/-! # What scopes show

The scopes of analysis hold symbols, in which it notes what is used.  What matters for the rest
of a program is only which names are in sight and what they stand for.

* `Scopes.Shows`: the names that scopes show.
* `Scopes.Shows.resolve`, `Scopes.Shows.declare`: looking up and declaring a name. -/

namespace NumericScript

open Analysis (Entry Names Env)

/-- What the name of a symbol stands for. -/
def Symbol.entry (s : Symbol) : Entry :=
  match s.kind with
  | .function params returns => .function params returns
  | _ => .var s.binding

theorem Symbol.entry_of_isFunction {s : Symbol} (h : s.isFunction = false) :
    s.entry = .var s.binding := by
  unfold isFunction at h
  unfold entry
  cases hk : s.kind with
  | function params returns =>
    rw [hk] at h
    cases h
  | _ => rfl

theorem Symbol.exists_of_isFunction {s : Symbol} (h : s.isFunction = true) :
    ∃ params returns, s.entry = .function params returns := by
  unfold isFunction at h
  split at h
  · rename_i params returns hk
    exact ⟨params, returns, by rw [entry, hk]⟩
  · cases h

namespace Scopes

/-- A scope shows a name with what the symbol of that number stands for. -/
structure ShowsName (symbols : Array Symbol) (p : String × Nat) (q : String × Entry) : Prop where
  name : p.1 = q.1
  entry : ∃ s, symbols[p.2]? = some s ∧ s.entry = q.2

theorem ShowsName.push {symbols : Array Symbol} {p : String × Nat}
    {q : String × Entry} (h : ShowsName symbols p q) (symbol : Symbol) :
    ShowsName (symbols.push symbol) p q := by
  obtain ⟨hx, s, hs, he⟩ := h
  refine ⟨hx, s, ?_, he⟩
  have hlt : p.2 < symbols.size := (Array.getElem?_eq_some_iff.1 hs).1
  rw [Array.getElem?_push_lt hlt]
  rw [Array.getElem?_eq_getElem hlt] at hs
  exact hs

/-- The names that scopes show. -/
structure Shows (s : Scopes) (Γ : Env) : Prop where
  inner : List.Forall₂ (List.Forall₂ (ShowsName s.symbols)) s.inner Γ.inner
  root : List.Forall₂ (ShowsName s.symbols) s.root Γ.root

/-- What a lookup by number finds agrees with what a lookup by name says. -/
inductive Finds (symbols : Array Symbol) : Option Nat → Option Entry → Prop where
  | nothing : Finds symbols none none
  | symbol {id : Nat} {s : Symbol} (h : symbols[id]? = some s) :
      Finds symbols (some id) (some s.entry)

theorem finds_lookup {symbols : Array Symbol} {scope : Scope} {names : Names}
    (h : List.Forall₂ (ShowsName symbols) scope names) (x : String) :
    Finds symbols (scope.lookup x) (names.lookup x) := by
  induction h with
  | nil => exact .nothing
  | @cons p q scope names hp _ ih =>
    obtain ⟨x', id⟩ := p
    obtain ⟨x'', e⟩ := q
    obtain ⟨hx, s, hs, he⟩ := hp
    dsimp only at hx hs he
    subst hx he
    by_cases hx : x = x'
    · subst hx
      simpa using .symbol hs
    · have hne : (x == x') = false := by simpa using hx
      simpa only [List.lookup_cons, hne] using ih

theorem finds_findSome {symbols : Array Symbol} {scopes : List Scope} {envs : List Names}
    (h : List.Forall₂ (List.Forall₂ (ShowsName symbols)) scopes envs) (x : String) :
    Finds symbols (scopes.findSome? (·.find? x)) (envs.findSome? (·.lookup x)) := by
  induction h with
  | nil => exact .nothing
  | @cons scope names _ _ hs _ ih =>
    have hf := finds_lookup hs x
    simp only [List.findSome?_cons, Scope.find?]
    generalize scope.lookup x = a, names.lookup x = b at hf
    cases hf with
    | nothing => exact ih
    | symbol h => exact .symbol h

namespace Shows

variable {s : Scopes} {Γ : Env}

theorem chain (h : s.Shows Γ) :
    List.Forall₂ (List.Forall₂ (ShowsName s.symbols)) s.chain Γ.chain :=
  List.rel_append h.inner (.cons h.root .nil)

theorem isGlobal (h : s.Shows Γ) : s.isGlobal = Γ.isGlobal := by
  have := h.inner.length_eq
  unfold Scopes.isGlobal Env.isGlobal
  cases hs : s.inner <;> cases hΓ : Γ.inner <;> simp_all

/-- What a name stands for. -/
theorem resolve (h : s.Shows Γ) (x : String) :
    s.resolve? x = none ∧ Γ.find? x = none ∨
      ∃ id symbol, s.resolve? x = some (id, symbol) ∧ Γ.find? x = some symbol.entry := by
  have hf : Finds s.symbols (s.lookup x) (Γ.find? x) := finds_findSome h.chain x
  unfold resolve?
  generalize s.lookup x = a, Γ.find? x = b at hf
  cases hf with
  | nothing => exact .inl ⟨rfl, rfl⟩
  | @symbol id symbol hs => exact .inr ⟨id, symbol, by simp [symbol?, hs], rfl⟩

/-- Which function a name calls. -/
theorem callee (h : s.Shows Γ) (f : String) :
    (Analysis.callee? s f).map (·.2) = Γ.callee? f := by
  have hf := finds_lookup h.root f
  unfold Analysis.callee? lookupGlobal Env.callee? Scope.find?
  generalize s.root.lookup f = a, Γ.root.lookup f = b at hf
  cases hf with
  | nothing => rfl
  | @symbol id symbol hs =>
    simp only [symbol?, hs, Option.bind_eq_bind, Option.bind_some]
    unfold Symbol.entry
    cases symbol.kind <;> rfl

theorem current (h : s.Shows Γ) :
    List.Forall₂ (ShowsName s.symbols) s.current Γ.current := by
  have hi := h.inner
  unfold Scopes.current Env.current
  generalize s.inner = a, Γ.inner = b at hi
  cases hi with
  | nil => exact h.root
  | cons hs _ => exact hs

theorem enter (h : s.Shows Γ) : s.enter.Shows Γ.enter := ⟨.cons .nil h.inner, h.root⟩

theorem exit {names : Names} {outer : List Names} (h : s.Shows Γ)
    (hΓ : Γ.inner = names :: outer) : s.exit.Shows { Γ with inner := outer } := by
  have hi := h.inner
  rw [hΓ] at hi
  unfold Scopes.exit
  split
  · rename_i scope scopes hs
    rw [hs] at hi
    cases hi with
    | cons _ hi => exact ⟨hi, h.root⟩
  · rename_i hs
    rw [hs] at hi
    cases hi

/-- Noting something in a symbol changes nothing that is shown. -/
theorem update (h : s.Shows Γ) (id : Nat) {f : Symbol → Symbol}
    (hf : ∀ symbol, (f symbol).entry = symbol.entry) : (s.update id f).Shows Γ := by
  have hname : ∀ p q, ShowsName s.symbols p q → ShowsName (s.symbols.modify id f) p q := by
    rintro p q ⟨hx, symbol, hs, he⟩
    refine ⟨hx, if id = p.2 then f symbol else symbol, ?_, ?_⟩
    · rw [Array.getElem?_modify, hs]
      split <;> rfl
    · split
      · rw [hf, he]
      · exact he
  exact ⟨h.inner.imp fun a b hab => hab.imp hname, h.root.imp hname⟩

/-- A new name. -/
theorem declare {symbol : Symbol} {id : Nat} {s' : Scopes} (h : s.Shows Γ)
    (hd : s.declare symbol = .ok (id, s')) :
    Γ.current.lookup symbol.name = none ∧ s'.Shows (Γ.add symbol.name symbol.entry) := by
  have hf := finds_lookup h.current symbol.name
  unfold Scopes.declare at hd
  split at hd
  · cases hd
  rename_i hnone
  rw [Scope.find?] at hnone
  rw [hnone] at hf
  refine ⟨by generalize Γ.current.lookup symbol.name = b at hf; cases hf; rfl, ?_⟩
  cases hd
  have hnew : ShowsName (s.symbols.push { symbol with depth := s.depth })
      (symbol.name, s.symbols.size) (symbol.name, symbol.entry) :=
    ⟨rfl, _, Array.getElem?_push_size, rfl⟩
  have hinner := h.inner.imp fun a b hab => hab.imp fun p q hpq =>
    ShowsName.push hpq { symbol with depth := s.depth }
  have hroot := h.root.imp fun p q hpq => ShowsName.push hpq { symbol with depth := s.depth }
  unfold addName Env.add
  generalize s.inner = a, Γ.inner = b at hinner
  cases hinner with
  | nil => exact ⟨.nil, .cons hnew hroot⟩
  | cons hs hrest => exact ⟨.cons (.cons hnew hs) hrest, hroot⟩

end Shows

end Scopes

end NumericScript
