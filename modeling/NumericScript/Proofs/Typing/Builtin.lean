import Mathlib.Data.List.Forall2
import NumericScript.Proofs.Typing.Value

/-! # Types of what builtins take and give

* `Builtin.has_of_call`: a builtin gives a value of the type that analysis says, whatever it takes.
* `Builtin.plain_of_call`: a builtin that is called with values of known types that it accepts
  finds them to be of the kinds that it asks for.
* `Value.has_of_ofInput`: what is read of a type is a value of it. -/

namespace NumericScript

open Machine (bind_eq_ok)

variable {shapes : Bool}

/-! ### What builtins give -/

theorem Builtin.has_of_gives {f : Builtin} {v : Value} (h : f.Gives v) :
    f.returns.Has shapes v := by
  unfold Gives at h
  cases hr : f.returns with
  | int =>
    rw [hr] at h
    exact h
  | float =>
    rw [hr] at h
    exact h
  | void =>
    rw [hr] at h
    exact h
  | matrix shape =>
    rw [hr] at h
    obtain ⟨m, rfl⟩ := h
    refine ⟨m, rfl, fun _ s hs => ?_⟩
    cases f <;> cases hr <;> cases hs
  | _ => cases f <;> cases hr

/-- A builtin gives a value of the type that analysis says. -/
theorem Builtin.has_of_call {f : Builtin} {args : List Value} {mode mode' : AngleMode} {v : Value}
    (h : f.call args mode = .ok (v, mode')) : f.returns.Has shapes v :=
  has_of_gives (gives_of_call h)

/-! ### What builtins take -/

/-- A parameter of a builtin finds a value to be of its kind. -/
def ParamKind.Takes (k : ParamKind) (v : Value) : Prop :=
  match k with
  | .number => ∃ x, v.asDouble = .ok x
  | .int => ∃ n, v.asInt = .ok n
  | .numericArray => ∃ xs, v.asNumbers = .ok xs
  | .anyArray => ∃ items, v.asArray = .ok items
  | .matrix => ∃ m, v.asMatrix = .ok m

theorem exists_asDouble {t : Ty} {v : Value} (ht : t.isNumeric = true) (hv : t.Has shapes v) :
    ∃ x, v.asDouble = .ok x := by
  cases t with
  | int =>
    obtain ⟨n, rfl⟩ := hv
    exact ⟨_, rfl⟩
  | float =>
    obtain ⟨x, rfl⟩ := hv
    exact ⟨_, rfl⟩
  | _ => cases ht

theorem exists_mapM_asDouble {items : List Value} (h : ∀ v ∈ items, ∃ x, v.asDouble = .ok x) :
    ∃ xs, items.mapM Value.asDouble = .ok xs := by
  induction items with
  | nil => exact ⟨[], rfl⟩
  | cons v vs ih =>
    obtain ⟨hv, hvs⟩ := List.forall_mem_cons.1 h
    obtain ⟨x, hx⟩ := hv
    obtain ⟨xs, hxs⟩ := ih hvs
    exact ⟨x :: xs, by rw [List.mapM_cons, hx, hxs]; rfl⟩

/-- A parameter that accepts a known type takes its values. -/
theorem ParamKind.takes_of_accepts {k : ParamKind} {t : Ty} {v : Value} (ha : k.accepts t = true)
    (ht : t.isKnown = true) (hv : t.Has shapes v) : k.Takes v := by
  cases k with
  | number =>
    cases t with
    | unknown => cases ht
    | int => exact exists_asDouble rfl hv
    | float => exact exists_asDouble rfl hv
    | _ => cases ha
  | int =>
    cases t with
    | unknown => cases ht
    | int =>
      obtain ⟨n, rfl⟩ := hv
      exact ⟨n, rfl⟩
    | _ => cases ha
  | numericArray =>
    cases t with
    | unknown => cases ht
    | array element =>
      obtain ⟨items, rfl, hitems⟩ := hv
      have hn : element.isNumeric = true := by
        rcases (Bool.or_eq_true_iff ..).1 ha with hn | hu
        · exact hn
        · rw [Ty.isUnknown_iff.1 hu] at ht
          cases ht
      exact exists_mapM_asDouble fun w hw => exists_asDouble hn (hitems w hw)
    | _ => cases ha
  | anyArray =>
    cases t with
    | unknown => cases ht
    | array element =>
      obtain ⟨items, rfl, -⟩ := hv
      exact ⟨items, rfl⟩
    | _ => cases ha
  | matrix =>
    cases t with
    | unknown => cases ht
    | matrix shape =>
      obtain ⟨m, rfl, -⟩ := hv
      exact ⟨m, rfl⟩
    | _ => cases ha

open Outcome (Plain)

theorem plain_nonempty {f : Builtin} {xs : List Double} {e : Fault}
    (h : Builtin.nonempty f xs = .error e) : Plain e := by
  unfold Builtin.nonempty at h
  split at h <;> cases h
  exact ⟨rfl, rfl⟩

theorem plain_several {f : Builtin} {xs : List Double} {e : Fault}
    (h : Builtin.several f xs = .error e) : Plain e := by
  unfold Builtin.several at h
  split at h <;> cases h
  · exact ⟨rfl, rfl⟩
  · exact ⟨rfl, rfl⟩

theorem plain_requireSquare {m : Matrix} {e : Fault} (h : m.requireSquare = .error e) :
    Plain e := by
  unfold Matrix.requireSquare at h
  split at h <;> cases h
  exact ⟨rfl, rfl⟩

/-- A fault comes from the first part of a computation or from the rest. -/
theorem bind_eq_error {α β : Type} {x : Except Fault α} {g : α → Except Fault β} {e : Fault} :
    (x >>= g) = .error e ↔ x = .error e ∨ ∃ a, x = .ok a ∧ g a = .error e := by
  cases x with
  | error f => simp [bind, Except.bind]
  | ok a => simp [bind, Except.bind]

theorem plain_logArgument {f : Builtin} {v : Value} {e : Fault} (hv : ∃ x, v.asDouble = .ok x)
    (h : Builtin.logArgument f v = .error e) : Plain e := by
  obtain ⟨x, hx⟩ := hv
  unfold Builtin.logArgument at h
  rw [hx] at h
  change (if x ≤ 0.0 then (.error (.domainError f x) : Except Fault Double) else .ok x) = _ at h
  split at h <;> cases h
  exact ⟨rfl, rfl⟩

theorem plain_unitArgument {f : Builtin} {v : Value} {e : Fault} (hv : ∃ x, v.asDouble = .ok x)
    (h : Builtin.unitArgument f v = .error e) : Plain e := by
  obtain ⟨x, hx⟩ := hv
  unfold Builtin.unitArgument at h
  rw [hx] at h
  change (if -1.0 ≤ x ∧ x ≤ 1.0 then (.ok x : Except Fault Double)
    else .error (.domainError f x)) = _ at h
  split at h <;> cases h
  exact ⟨rfl, rfl⟩

theorem plain_determinant {m : Matrix} {e : Fault} (h : m.determinant = .error e) : Plain e := by
  rcases bind_eq_error.1 h with h | ⟨_, _, h⟩
  · exact plain_requireSquare h
  · cases h

theorem plain_trace {m : Matrix} {e : Fault} (h : m.trace = .error e) : Plain e := by
  rcases bind_eq_error.1 h with h | ⟨_, _, h⟩
  · exact plain_requireSquare h
  · cases h

theorem plain_inverse {m : Matrix} {e : Fault} (h : m.inverse = .error e) : Plain e := by
  rcases bind_eq_error.1 h with h | ⟨_, _, h⟩
  · exact plain_requireSquare h
  · exact Outcome.plain_eliminateAll h

theorem plain_lcmInt {a b : Int64} {e : Fault} (h : Builtin.lcmInt a b = .error e) : Plain e := by
  unfold Builtin.lcmInt at h
  dsimp only at h
  split at h
  · cases h
  · split at h <;> cases h
    exact ⟨rfl, rfl⟩

namespace Builtin

variable {f : Builtin} {e : Fault}

/-- What a builtin makes of the one thing that it takes from its argument. -/
theorem plain_bind {α β : Type} {x : Except Fault α} {g : α → Except Fault β}
    (hx : ∃ a, x = .ok a) (hg : ∀ a, g a = .error e → Plain e) (h : (x >>= g) = .error e) :
    Plain e := by
  obtain ⟨a, rfl⟩ := hx
  exact hg a h

theorem plain_bind_of_plain {α β : Type} {x : Except Fault α} {g : α → Except Fault β}
    (hx : x = .error e → Plain e) (hg : ∀ a, g a = .error e → Plain e)
    (h : (x >>= g) = .error e) : Plain e := by
  rcases bind_eq_error.1 h with h | ⟨a, -, h⟩
  · exact hx h
  · exact hg a h

/-- A builtin that is called with one value of the kind that it asks for. -/
theorem plain_callOne {mode : AngleMode} {v : Value} {k : ParamKind} (ha : f.acceptsArity 1 = true)
    (hk : f.params.head? = some k) (hv : k.Takes v) (h : callOne mode f v = .error e) :
    Plain e := by
  cases f
  case pi | e | degrees | radians => cases hk
  case gcd | lcm => cases ha
  all_goals cases hk
  case sin | cos | tan | atan | sinh | cosh | tanh | exp | cbrt | abs | floor | ceil | round =>
    exact plain_bind hv (fun _ h => by cases h) h
  case asin | acos =>
    exact plain_bind_of_plain (plain_unitArgument hv) (fun _ h => by cases h) h
  case ln | lg | log | log10 | log2 =>
    exact plain_bind_of_plain (plain_logArgument hv) (fun _ h => by cases h) h
  case sqrt =>
    refine plain_bind hv (fun x h => ?_) h
    dsimp only at h
    split at h <;> cases h
    exact ⟨rfl, rfl⟩
  case factorial =>
    refine plain_bind hv (fun n h => ?_) h
    split at h <;> cases h
    exact ⟨rfl, rfl⟩
  case len | sum => exact plain_bind hv (fun _ h => by cases h) h
  case max | min | mean | median =>
    exact plain_bind hv (fun _ h => plain_bind_of_plain plain_nonempty (fun _ h => by cases h) h) h
  case stdev | variance =>
    exact plain_bind hv (fun _ h => plain_bind_of_plain plain_several (fun _ h => by cases h) h) h
  case det =>
    exact plain_bind hv
      (fun _ h => plain_bind_of_plain plain_determinant (fun _ h => by cases h) h) h
  case trace =>
    exact plain_bind hv (fun _ h => plain_bind_of_plain plain_trace (fun _ h => by cases h) h) h
  case inverse =>
    exact plain_bind hv (fun _ h => plain_bind_of_plain plain_inverse (fun _ h => by cases h) h) h
  case transpose => exact plain_bind hv (fun _ h => by cases h) h

/-- A builtin that is called with two values of the kinds that it asks for. -/
theorem plain_callTwo {v w : Value} {k k' : ParamKind} (hk : f.params = [k, k']) (hv : k.Takes v)
    (hw : k'.Takes w) (h : callTwo f v w = .error e) : Plain e := by
  cases f <;> cases hk
  case gcd =>
    exact plain_bind hv (fun _ h => plain_bind hw (fun _ h => by cases h) h) h
  case lcm =>
    refine plain_bind hv (fun _ h => plain_bind hw (fun _ h => ?_) h) h
    exact plain_bind_of_plain plain_lcmInt (fun _ h => by cases h) h
  case log =>
    refine plain_bind_of_plain (plain_logArgument hv) (fun x h => plain_bind hw (fun y h => ?_) h) h
    split at h <;> cases h
    exact ⟨rfl, rfl⟩

/-- The arguments of a builtin are of known types that it accepts. -/
def Accepts (f : Builtin) (ts : List Ty) : Prop :=
  f.acceptsArity ts.length = true ∧ (f.params.zip ts).all (fun p => p.1.accepts p.2) = true

/-- A builtin that is called with values of known types that it accepts finds them to be of the
kinds that it asks for. -/
theorem plain_of_call {args : List Value} {ts : List Ty} {mode : AngleMode} (ha : f.Accepts ts)
    (hk : ∀ t ∈ ts, t.isKnown = true) (hargs : List.Forall₂ (Ty.Has shapes) ts args)
    (h : f.call args mode = .error e) : Plain e := by
  obtain ⟨harity, hall⟩ := ha
  have hlen : args.length = ts.length := hargs.length_eq.symm
  unfold call at h
  rw [hlen, if_pos harity] at h
  have hcount : ts.length ≤ f.params.length :=
    of_decide_eq_true (Bool.and_eq_true_iff.1 harity).2
  cases hargs with
  | nil =>
    cases f
    case pi | e | degrees | radians => cases h
    all_goals cases harity
  | @cons t v ts vs ht hts =>
    obtain ⟨hkt, hkts⟩ := List.forall_mem_cons.1 hk
    cases hp : f.params with
    | nil =>
      rw [hp] at hcount
      cases hcount
    | cons k ks =>
      rw [hp, List.zip_cons_cons, List.all_cons, Bool.and_eq_true] at hall
      have hv := ParamKind.takes_of_accepts hall.1 hkt ht
      cases hts with
      | nil =>
        rcases bind_eq_error.1 h with h | ⟨_, _, h⟩
        · exact plain_callOne harity (by rw [hp]; rfl) hv h
        · cases h
      | @cons t' w ts vs ht' hts =>
        obtain ⟨hkt', hkts⟩ := List.forall_mem_cons.1 hkts
        cases hks : ks with
        | nil =>
          rw [hp, hks] at hcount
          simp at hcount
        | cons k' ks' =>
          rw [hks, List.zip_cons_cons, List.all_cons, Bool.and_eq_true] at hall
          have hw := ParamKind.takes_of_accepts hall.2.1 hkt' ht'
          have hks' : ks' = [] := by
            subst hks
            cases f <;> cases hp <;> rfl
          cases hts with
          | nil =>
            rcases bind_eq_error.1 h with h | ⟨_, _, h⟩
            · exact plain_callTwo (by rw [hp, hks, hks']) hv hw h
            · cases h
          | cons =>
            rw [hp, hks, hks'] at hcount
            simp at hcount

end Builtin

/-! ### Input -/

/-- What is read of a type is a value of it. -/
theorem Value.has_of_ofInput {line : String} {t : Ty} {v : Value}
    (h : Value.ofInput line t = .ok v) : t.Has shapes v := by
  unfold Value.ofInput at h
  cases t <;> dsimp only at h
  case str =>
    cases h
    exact Ty.has_str _
  case int =>
    split at h <;> cases h
    obtain ⟨n, -, rfl⟩ := Option.map_eq_some_iff.1 ‹_ = some v›
    exact Ty.has_int n
  case float =>
    split at h <;> cases h
    obtain ⟨x, -, rfl⟩ := Option.map_eq_some_iff.1 ‹_ = some v›
    exact Ty.has_float x
  case bool =>
    split at h <;> cases h
    rename_i hv
    split at hv
    · cases hv
      exact Ty.has_bool _
    · split at hv <;> cases hv
      exact Ty.has_bool _
  all_goals cases h

theorem Value.plain_of_ofInput {line : String} {t : Ty} {f : Fault}
    (h : Value.ofInput line t = .error f) : Plain f := by
  unfold Value.ofInput at h
  cases t <;> dsimp only at h
  case str => cases h
  case int | float | bool =>
    split at h <;> cases h
    exact ⟨rfl, rfl⟩
  all_goals
    cases h
    exact ⟨rfl, rfl⟩

end NumericScript
