import NumericScript.Proofs.Direct.Step

/-! # The code of expressions

The code of an expression does what the expression does when it is carried out directly.  An
operand is captured when its turn comes.  Code leaves a variable where it is as long as nothing
that is evaluated after it can change it, which only calls can do, and otherwise keeps its value in
a temporary; so the operand still gives the value that was captured when the operation is carried
out.

* `Plays`: calls do what they do when they are carried out directly.
* `ExprCode.tracks`: expressions. -/

namespace NumericScript

open Direct Lowering Machine

/-! ### Captured operands -/

/-- An operand gives what was captured.  If it is a temporary, it was supplied before.  Only if it
is a variable can there be no value. -/
structure Captures (s : State) (a : Operand) (c : Captured) (m : Machine) : Prop where
  eval : m.eval a = c
  temp : ∀ t, a = .place (.temp t) → t < s.temps
  ne_returned : a ≠ .returned
  found : (∀ v, a ≠ .place (.var v)) → ∃ w, c = .ok w

section

variable {s s' : State} {a : Operand} {c : Captured} {m : Machine} {p q : Point}

theorem read_variable (p : Point) (b : Binding) :
    p.machine.read (.var b.variable) = p.world.value b := by
  rcases b with ⟨slot, ty, storage⟩
  cases storage <;> rfl

theorem read_temp {t : Nat} {v : Value} (h : m.frame.temps.get? t = some v) :
    m.read (.temp t) = .ok v := by
  unfold Machine.read
  rw [show m.read? (.temp t) = some v from h]

namespace Captures

theorem const (s : State) (k : Constant) (m : Machine) :
    Captures s (.const k) (.ok k.toValue) m := ⟨rfl, by simp, by simp, fun _ => ⟨_, rfl⟩⟩

theorem of_variable (s : State) (b : Binding) (p : Point) :
    Captures s (.place (.var b.variable)) (p.world.value b) p.machine :=
  ⟨read_variable p b, by simp, by simp, fun h => absurd rfl (h _)⟩

theorem of_temp {t : Nat} {v : Value} (ht : t < s.temps) (hv : m.frame.temps.get? t = some v) :
    Captures s (.place (.temp t)) (.ok v) m where
  eval := read_temp hv
  temp := fun u hu => by cases hu; exact ht
  ne_returned := by simp
  found := fun _ => ⟨v, rfl⟩

/-- An operand still gives what was captured if it is no variable, or if the world is as it was. -/
theorem carry {changes : Bool} (h : Captures s a c p.machine)
    (ha : changes = true → ∀ v, a ≠ .place (.var v)) (hw : changes = false → q.world = p.world)
    (ht : ∀ t < s.temps, q.machine.frame.temps.get? t = p.machine.frame.temps.get? t)
    (hs : s.temps ≤ s'.temps) : Captures s' a c q.machine where
  temp := fun t hat => Nat.lt_of_lt_of_le (h.temp t hat) hs
  ne_returned := h.ne_returned
  found := h.found
  eval := by
    rw [← h.eval]
    cases a with
    | const k => rfl
    | returned => exact absurd rfl h.ne_returned
    | place d =>
      have hread : q.machine.read? d = p.machine.read? d := by
        rcases d with t | ⟨slot, storage⟩
        · exact ht t (h.temp t rfl)
        · cases hc : changes with
          | true => exact absurd rfl (ha hc ⟨slot, storage⟩)
          | false =>
            have hw := hw hc
            cases storage with
            | global => exact congrArg (·.globals.get? slot) hw
            | «local» => exact congrArg (·.locals.get? slot) hw
      simp only [Machine.eval, Machine.read, hread]

end Captures

/-! ### Results -/

/-- Code leads from `p` to position `k`, where the operand `a` gives what was captured.  Without
calls the world is as it was. -/
structure Evaluated (s : State) (called : Bool) (a : Operand) (s' : State) (p : Point) (k : Nat)
    (c : Captured) (q : Point) : Prop where
  went : Went s.temps p k p.machine.args q
  captures : Captures s' a c q.machine
  world : called = false → q.world = p.world

theorem Evaluated.after {s s₁ s' : State} {called called' : Bool} {a : Operand} {p q r : Point}
    {k k' : Nat} {c : Captured} (h : Evaluated s₁ called' a s' q k' c r)
    (hwent : Went s.temps p k p.machine.args q) (hs : s.temps ≤ s₁.temps)
    (hw : called = false → called' = false ∧ q.world = p.world) :
    Evaluated s called a s' p k' c r where
  went := hwent.seq h.went hs
  captures := h.captures
  world := fun hc => (h.world (hw hc).1).trans (hw hc).2

end

/-! ### Surroundings -/

/-- What surrounds the code at hand: the function that is carried out, and how many calls have not
returned. -/
structure Resident (function : Option Function) (depth : Nat) (m : Machine) : Prop where
  depth : m.calls.length = depth
  function : match function with
    | none => m.calls = []
    | some fn => ∃ f fs, m.calls = f :: fs ∧ f.function = fn.name ∧
        f.returnsValue = decide (fn.returns ≠ .void)

theorem Resident.of_home {function : Option Function} {depth : Nat} {m m' : Machine}
    (h : Resident function depth m) (hm : m'.home = m.home) : Resident function depth m' where
  depth := (length_calls_of_home hm).trans h.depth
  function := by
    have hf := h.function
    unfold home at hm
    cases function with
    | none =>
      dsimp only at hf ⊢
      rw [hf] at hm
      cases hc : m'.calls with
      | nil => rfl
      | cons f fs => rw [hc] at hm; cases hm
    | some fn =>
      obtain ⟨f, fs, hc, hname, hvalue⟩ := hf
      rw [hc] at hm
      cases hc' : m'.calls with
      | nil => rw [hc'] at hm; cases hm
      | cons f' fs' =>
        rw [hc'] at hm
        have hcleared := (Prod.mk.inj (Option.some.inj hm)).1
        exact ⟨f', fs', rfl, (congrArg Frame.function hcleared).trans hname,
          (congrArg Frame.returnsValue hcleared).trans hvalue⟩

/-- The run is at position `k`, inside a function. -/
structure Stands (function : Option Function) (depth k : Nat) (p : Point) : Prop where
  pc : p.machine.pc = k
  resident : Resident function depth p.machine

theorem Stands.went {function : Option Function} {depth k k' bound : Nat} {p q : Point}
    {args : List Value} (h : Stands function depth k p) (hw : Went bound p k' args q) :
    Stands function depth k' q :=
  ⟨hw.pc, h.resident.of_home hw.home⟩

/-- The machine carries out the code of what stands in a scene as it is carried out directly: its
calls do what calls do there. -/
structure Plays (code : List Instr) (image : Image) (n depth : Nat) (c : Context) (σ : Scene) :
    Prop where
  ready : Ready code image
  returns : c.returns = σ.returns
  bound : σ.bound = n
  params : ∀ {f : String} {target : Callee} {params : List Ty} {returns : Ty},
    callee? c f = some (target, params, returns) → σ.params f = params
  call : ∀ {f : String} {target : Callee} {params : List Ty} {returns : Ty},
    callee? c f = some (target, params, returns) →
    ∀ (bound k line : Nat) (args rest : List Value) (p : Point),
      code[k]? = some ⟨.call target args.length, line⟩ → p.machine.args = args.reverse ++ rest →
      Stands σ.function depth k p →
      Tracks image n p (fun v q => Went bound p (k + 1) rest q ∧ q.machine.returned = v)
        (σ.call line f args p.world)

/-! ### Operands -/

section

variable {code : List Instr} {image : Image} {n k line : Nat} {p q : Point} {s s' : State}
  {a a' : Operand}

/-- An operation whose result goes to the temporary that is supplied next. -/
theorem tracks_result (hr : Ready code image) {op : Op} {x : Except Fault Value}
    (hline : s.line = line) (hk : p.machine.pc = k) (hat : code[k]? = some (s.instr op))
    (he : p.machine.effect op = some (s.temp, x)) :
    Tracks image n p (Evaluated s false (.place s.temp) s.nextTemp p (k + 1))
      ((do let v ← check line x; return .ok v : Act Captured) p.world) := by
  subst hline
  refine (tracks_temp hr hk hat he (Nat.le_refl _)).bind fun v q ⟨hw, ht, hworld⟩ => ?_
  exact .pure ⟨hw, .of_temp (Nat.lt_succ_self _) ht, fun _ => hworld⟩

/-- Before something is evaluated that could change it, an operand is kept in a temporary. -/
theorem Lowering.Pins.tracks (hr : Ready code image) {changes called : Bool} {s₁ s₂ : State}
    {keep : List Instr} (h : Pins changes s₁ a keep a' s₂) (hline : s₁.line = line)
    (hat : CodeAt code k keep) (hs : s.temps ≤ s₁.temps) {x : Act Captured}
    (hx : Tracks image n p (Evaluated s called a s₁ p k) (x p.world)) :
    Tracks image n p (fun c q => Evaluated s called a' s₂ p (k + keep.length) c q ∧
      (changes = true → ∀ v, a' ≠ .place (.var v)))
      ((x >>= Direct.secure line changes) p.world) := by
  refine hx.bind fun c q hq => ?_
  unfold Direct.secure
  cases h with
  | keep hkeep =>
    cases hc : changes with
    | false => exact .pure ⟨hq, by simp⟩
    | true =>
      obtain ⟨w, rfl⟩ := hq.captures.found (hkeep hc)
      exact .pure ⟨hq, fun _ => hkeep hc⟩
  | @pin v hc =>
    rw [if_pos hc]
    have he : q.machine.effect (.copy s₁.temp (.place (.var v))) = some (s₁.temp, c) :=
      congrArg (fun x => some (s₁.temp, x)) hq.captures.eval
    refine (tracks_result hr hline hq.went.pc (codeAt_singleton.1 hat) he).mono
      fun w r hr => ⟨hr.after hq.went hs fun h => ⟨rfl, hq.world h⟩, fun _ => ?_⟩
    simp [State.temp]

/-- A captured value is widened. -/
theorem Lowering.Widens.tracks (hr : Ready code image) {found expected : Ty} {widening : List Instr}
    (h : Widens s found expected a widening a' s') (hline : s.line = line)
    (hk : p.machine.pc = k) (hat : CodeAt code k widening) {c : Captured}
    (hc : Captures s a c p.machine) :
    Tracks image n p (Evaluated s false a' s' p (k + widening.length))
      (Direct.widen line found expected c p.world) := by
  unfold Direct.widen
  cases h with
  | same h =>
    rw [if_neg h]
    exact .pure ⟨.refl _ hk, hc, fun _ => rfl⟩
  | @const i =>
    rw [if_pos ⟨rfl, rfl⟩]
    obtain rfl := hc.eval
    exact .pure ⟨.refl _ hk, .const _ (.float _) _, fun _ => rfl⟩
  | widen h =>
    rw [if_pos ⟨rfl, rfl⟩]
    refine tracks_result hr hline hk (codeAt_singleton.1 hat) ?_
    rw [effect, hc.eval]

/-- The value of an expression is widened after it was evaluated. -/
theorem Lowering.Widens.tracks_after (hr : Ready code image) {found expected : Ty} {called : Bool}
    {s₁ s₂ : State} {widening : List Instr} (h : Widens s₁ found expected a widening a' s₂)
    (hs : s.temps ≤ s₁.temps) (hline : s₁.line = line) (hat : CodeAt code k widening)
    {x : Act Captured} (hx : Tracks image n p (Evaluated s called a s₁ p k) (x p.world)) :
    Tracks image n p (Evaluated s called a' s₂ p (k + widening.length))
      ((x >>= Direct.widen line found expected) p.world) := by
  refine hx.bind fun c q hq => ?_
  exact (h.tracks hr hline hq.went.pc hat hq.captures).mono fun c' r hr =>
    hr.after hq.went hs fun hc => ⟨rfl, hq.world hc⟩

/-- Code leads from `p` to position `k` and has passed arguments on the way. -/
structure ArgumentsPassed (s : State) (called : Bool) (es : List Expr) (p : Point) (k : Nat)
    (vs : List Value) (q : Point) : Prop where
  went : Went s.temps p k (vs.reverse ++ p.machine.args) q
  length : vs.length = es.length
  world : called = false → q.world = p.world

/-- Code leads from `p` to position `k` and leaves a value in the temporary `t`.  Without calls the
world is as it was. -/
structure Kept (t : Nat) (called : Bool) (p : Point) (k : Nat) (v : Value) (q : Point) : Prop where
  went : Went t p k p.machine.args q
  value : q.machine.frame.temps.get? t = some v
  world : called = false → q.world = p.world

theorem Kept.after {t : Nat} {called called₁ called₂ : Bool} {k k' : Nat} {v w : Value}
    {q r : Point} (h : Kept t called₂ q k' w r) (hq : Kept t called₁ p k v q)
    (hc : called = false → called₂ = false ∧ called₁ = false) : Kept t called p k' w r where
  went := hq.went.seq h.went (Nat.le_refl t)
  value := h.value
  world := fun h' => (h.world (hc h').1).trans (hq.world (hc h').2)

/-- The value stays in the temporary while only later temporaries are given values. -/
theorem Kept.further {t bound : Nat} {called : Bool} {k k' : Nat} {v : Value} {q r : Point}
    (h : Kept t called p k v q) (hr : Went bound q k' q.machine.args r) (hb : t < bound) :
    Kept t true p k' v r where
  went := h.went.seq hr (Nat.le_of_lt hb)
  value := (hr.temps t hb).trans h.value
  world := by simp

/-- A container that was made and filled is the value of a literal. -/
theorem Kept.evaluated {called called' : Bool} {k k' : Nat} {v : Value} {q r : Point}
    (h : Kept s.temps called' q k' v r) (hq : Went s.temps p k p.machine.args q)
    (hs : s.temps < s'.temps) (hc : called = false → called' = false ∧ q.world = p.world) :
    Evaluated s called (.place s.temp) s' p k' (.ok v) r where
  went := hq.seq h.went (Nat.le_refl _)
  captures := .of_temp hs h.value
  world := fun h' => (h.world (hc h').1).trans (hc h').2

/-- The temporary that is supplied next is given a value. -/
theorem reaches_temp (hr : Ready code image) {function : Option Function} {depth : Nat} {op : Op}
    {v : Value} (hp : Stands function depth k p) (hat : code[k]? = some (s.instr op))
    (he : p.machine.effect op = some (s.temp, .ok v)) :
    ∃ q, image.Reaches p q ∧ q.world = p.world ∧ Went s.temps p (k + 1) p.machine.args q ∧
      q.machine.frame.temps.get? s.temps = some v := by
  obtain ⟨q, hpq, hw, hwent, ht, -⟩ : Tracks image 0 p _ (some (.ok (v, p.world))) :=
    tracks_temp hr hp.pc hat he (Nat.le_refl s.temps)
  exact ⟨q, hpq, hw, hwent, ht⟩

/-- A value is widened and put into the container in a temporary. -/
theorem tracks_fill (hr : Ready code image) {t row : Nat} (col : Option Nat) {called : Bool}
    {found expected : Ty} {s₁ : State} {widening : List Instr} {v : Value} {c : Captured}
    (hw : Widens s₁ found expected a widening a' s') (hline : s₁.line = line)
    (hs : t < s.temps) (hs₁ : s.temps ≤ s₁.temps) (hat : CodeAt code k widening)
    (hatf : code[k + widening.length]? =
      some (s'.instr (.store (.temp t) (indexConst row) (col.map indexConst) a')))
    (hv : p.machine.frame.temps.get? t = some v) (hq : Evaluated s called a s₁ p k c q) :
    Tracks image n q (Kept t called p (k + widening.length + 1))
      (Direct.fill line found expected v (Direct.position row) (col.map Direct.position) c
        q.world) := by
  unfold Direct.fill
  refine (hw.tracks hr hline hq.went.pc hat hq.captures).bind fun c' r hr' => ?_
  have hr' := hr'.after hq.went hs₁ fun h => ⟨rfl, hq.world h⟩
  have hread : r.machine.read (.temp t) = .ok v := read_temp ((hr'.went.temps t hs).trans hv)
  have he : r.machine.effect (.store (.temp t) (indexConst row) (col.map indexConst) a') =
      some (.temp t,
        Direct.store (.ok v) (Direct.position row) (col.map Direct.position) c') := by
    rw [effect, hread, hr'.captures.eval]
    cases col <;> rfl
  rw [State.instr, hw.supplied.line.trans hline] at hatf
  refine (tracks_temp hr hr'.went.pc hatf he (Nat.le_refl t)).mono fun w r' hwritten => ?_
  obtain ⟨hwent, ht, hworld⟩ := hwritten
  exact ⟨(hr'.went.of_le (Nat.le_of_lt hs)).seq hwent (Nat.le_refl t), ht,
    fun h => hworld.trans (hr'.world h)⟩

end

/-! ### Expressions -/

namespace Lowering

section

variable {code : List Instr} {image : Image} {n depth line : Nat} {c : Context} {σ : Scene}

mutual

theorem ExprCode.tracks (hσ : Plays code image n depth c σ) (e : Expr) :
    ∀ {s s' : State} {piece : List Instr} {a : Operand} {k : Nat} {p : Point},
    ExprCode c s e piece a s' → s.line = line → CodeAt code k piece →
    Stands σ.function depth k p →
    Tracks image n p (Evaluated s (calls e) a s' p (k + piece.length))
      (Direct.expr σ line e p.world) := by
  intro s s' piece a k p h hline hat hp
  cases h with
  | int | float | str | bool =>
    rw [Direct.expr]
    exact .pure ⟨.refl _ hp.pc, .const _ _ _, fun _ => rfl⟩
  | name hb =>
    rw [Direct.expr, hb]
    exact Tracks.pure ⟨.refl _ hp.pc, .of_variable _ _ _, fun _ => rfl⟩
  | @binary _ s₁ s₂ s₃ m op l r left keep right a a' b hl hk hr =>
    simp only [codeAt_append, codeAt_singleton, List.length_append, List.length_singleton,
      ← Nat.add_assoc] at hat ⊢
    obtain ⟨⟨⟨hatl, hatk⟩, hatr⟩, hati⟩ := hat
    have hs₁ := hl.supplied
    have hs₂ := hs₁.append hk.supplied
    have hs₃ := hs₂.append hr.supplied
    rw [Direct.expr]
    refine (hk.tracks hσ.ready (hs₁.line.trans hline) hatk hs₁.temps
      (ExprCode.tracks hσ l hl hline hatl hp)).bind fun c₁ q₁ ⟨hq₁, hkeep⟩ => ?_
    refine (ExprCode.tracks hσ r hr (hs₂.line.trans hline) hatr (hp.went hq₁.went)).bind
      fun c₂ q₂ hq₂ => ?_
    have hcap := hq₁.captures.carry hkeep hq₂.world hq₂.went.temps hr.supplied.temps
    have he : q₂.machine.effect (.binary s₃.temp op a' b) =
        some (s₃.temp, do op.apply (← c₁) (← c₂)) := by
      rw [effect, hcap.eval, hq₂.captures.eval]
    refine (tracks_result hσ.ready (hs₃.line.trans hline) hq₂.went.pc hati he).mono
      fun v q₃ hq₃ => (hq₃.after hq₂.went hr.supplied.temps fun h => ⟨rfl, hq₂.world h⟩).after
        hq₁.went hs₂.temps fun h => ?_
    rw [calls, Bool.or_eq_false_iff] at h
    exact ⟨h.2, hq₁.world h.1⟩
  | @unary _ s₁ m op e code' a he =>
    simp only [codeAt_append, codeAt_singleton, List.length_append, List.length_singleton,
      ← Nat.add_assoc] at hat ⊢
    obtain ⟨hate, hati⟩ := hat
    have hs₁ := he.supplied
    rw [Direct.expr]
    refine (ExprCode.tracks hσ e he hline hate hp).bind fun c₁ q₁ hq₁ => ?_
    have heffect : q₁.machine.effect (.unary s₁.temp op.fn a) =
        some (s₁.temp, do op.fn.apply (← c₁)) := by
      rw [effect, hq₁.captures.eval]
    refine (tracks_result hσ.ready (hs₁.line.trans hline) hq₁.went.pc hati heffect).mono
      fun v q₂ hq₂ => hq₂.after hq₁.went hs₁.temps fun h => ⟨rfl, hq₁.world ?_⟩
    rwa [calls] at h
  | @call _ s₁ m f args target params returns passing hf ha hv =>
    simp only [codeAt_append, codeAt_singleton, List.length_append, List.length_singleton,
      ← Nat.add_assoc] at hat ⊢
    obtain ⟨⟨hata, hatc⟩, hati⟩ := hat
    have hs₁ := ha.supplied
    rw [Direct.expr, hσ.params hf]
    refine (ArgumentsCode.tracks hσ args ha hline hata hp).bind fun vs q₁ hq₁ => ?_
    rw [← hq₁.length, State.instr, hs₁.line.trans hline] at hatc
    refine (hσ.call hf s₁.temps _ _ vs _ q₁ hatc hq₁.went.args (hp.went hq₁.went)).bind
      fun given q₂ ⟨hwent, hreturned⟩ => ?_
    have he : q₂.machine.effect (.copy s₁.temp .returned) =
        some (s₁.temp, Direct.result given) := by
      rw [effect, Machine.eval, hreturned]
      cases given <;> rfl
    refine (tracks_result hσ.ready (hs₁.line.trans hline) hwent.pc hati he).mono
      fun v q₃ hq₃ => hq₃.after (hq₁.went.trans hwent hs₁.temps) hs₁.temps fun h => ?_
    rw [calls] at h
    cases h
  | @array _ _ m items fill hi =>
    simp only [codeAt_append, codeAt_singleton, List.length_append, List.length_singleton,
      ← Nat.add_assoc] at hat ⊢
    obtain ⟨hatn, hati⟩ := hat
    rw [Direct.expr]
    obtain ⟨q₁, h₁, hw, hq₁, hc⟩ := reaches_temp hσ.ready hp hatn rfl
    rw [← hw]
    refine .of_reaches h₁ ?_
    refine (ElementsCode.tracks hσ items hi hline hati (hp.went hq₁) (Nat.lt_succ_self _)
      hc).bind fun v q₂ hq₂ => .pure (hq₂.evaluated hq₁ ?_ fun h => ⟨?_, hw⟩)
    · exact Nat.lt_of_lt_of_le (Nat.lt_succ_self _) hi.supplied.temps
    · rwa [calls] at h
  | @matrix _ _ m rows fill hi =>
    simp only [codeAt_append, codeAt_singleton, List.length_append, List.length_singleton,
      ← Nat.add_assoc] at hat ⊢
    obtain ⟨hatn, hati⟩ := hat
    rw [Direct.expr]
    obtain ⟨q₁, h₁, hw, hq₁, hc⟩ := reaches_temp hσ.ready hp hatn rfl
    rw [← hw]
    refine .of_reaches h₁ ?_
    refine (RowsCode.tracks hσ rows hi hline hati (hp.went hq₁) (Nat.lt_succ_self _)
      hc).bind fun v q₂ hq₂ => .pure (hq₂.evaluated hq₁ ?_ fun h => ⟨?_, hw⟩)
    · exact Nat.lt_of_lt_of_le (Nat.lt_succ_self _) hi.supplied.temps
    · rwa [calls] at h
  | @element _ s₁ s₂ s₃ m base row first keep second b b' i hb hk hr =>
    simp only [codeAt_append, codeAt_singleton, List.length_append, List.length_singleton,
      ← Nat.add_assoc] at hat ⊢
    obtain ⟨⟨⟨hatb, hatk⟩, hatr⟩, hati⟩ := hat
    have hs₁ := hb.supplied
    have hs₂ := hs₁.append hk.supplied
    have hs₃ := hs₂.append hr.supplied
    rw [Direct.expr]
    refine (hk.tracks hσ.ready (hs₁.line.trans hline) hatk hs₁.temps
      (ExprCode.tracks hσ base hb hline hatb hp)).bind fun c₁ q₁ ⟨hq₁, hkeep⟩ => ?_
    refine (ExprCode.tracks hσ row hr (hs₂.line.trans hline) hatr (hp.went hq₁.went)).bind
      fun c₂ q₂ hq₂ => ?_
    have hcap := hq₁.captures.carry hkeep hq₂.world hq₂.went.temps hr.supplied.temps
    have he : q₂.machine.effect (.load s₃.temp b' i none) =
        some (s₃.temp, Direct.load c₁ c₂ none) := by
      rw [effect, hcap.eval, evalInt, hq₂.captures.eval]
      rfl
    refine (tracks_result hσ.ready (hs₃.line.trans hline) hq₂.went.pc hati he).mono
      fun v q₃ hq₃ => (hq₃.after hq₂.went hr.supplied.temps fun h => ⟨rfl, hq₂.world h⟩).after
        hq₁.went hs₂.temps fun h => ?_
    rw [calls, Bool.or_eq_false_iff] at h
    exact ⟨h.2, hq₁.world h.1⟩
  | @entry _ s₁ s₂ s₃ s₄ s₅ m base row col first keep second keepRow third b b' i i' j hb hk hr hkr
      hc =>
    simp only [codeAt_append, codeAt_singleton, List.length_append, List.length_singleton,
      ← Nat.add_assoc] at hat ⊢
    obtain ⟨⟨⟨⟨⟨hatb, hatk⟩, hatr⟩, hatkr⟩, hatc⟩, hati⟩ := hat
    have hs₁ := hb.supplied
    have hs₂ := hs₁.append hk.supplied
    have hrow := hr.supplied.append hkr.supplied
    have hs₄ := hs₂.append hrow
    have hs₅ := hs₄.append hc.supplied
    rw [Direct.expr]
    refine (hk.tracks hσ.ready (hs₁.line.trans hline) hatk hs₁.temps
      (ExprCode.tracks hσ base hb hline hatb hp)).bind fun c₁ q₁ ⟨hq₁, hkeep⟩ => ?_
    have hp₁ := hp.went hq₁.went
    refine (hkr.tracks hσ.ready ((hs₂.append hr.supplied).line.trans hline) hatkr hr.supplied.temps
      (ExprCode.tracks hσ row hr (hs₂.line.trans hline) hatr hp₁)).bind
        fun c₂ q₂ ⟨hq₂, hkeepRow⟩ => ?_
    refine (ExprCode.tracks hσ col hc (hs₄.line.trans hline) hatc (hp₁.went hq₂.went)).bind
      fun c₃ q₃ hq₃ => ?_
    have hbase := (hq₁.captures.carry hkeep (fun h => hq₂.world (Bool.or_eq_false_iff.1 h).1)
      hq₂.went.temps hrow.temps).carry hkeep (fun h => hq₃.world (Bool.or_eq_false_iff.1 h).2)
      hq₃.went.temps hc.supplied.temps
    have hindex := hq₂.captures.carry hkeepRow hq₃.world hq₃.went.temps hc.supplied.temps
    have he : q₃.machine.effect (.load s₅.temp b' i' (some j)) =
        some (s₅.temp, Direct.load c₁ c₂ (some c₃)) := by
      rw [effect, hbase.eval, evalInt, hindex.eval, evalIndex, evalInt, hq₃.captures.eval]
      rfl
    refine (tracks_result hσ.ready (hs₅.line.trans hline) hq₃.went.pc hati he).mono
      fun v q₄ hq₄ => ?_
    have hindices : Evaluated s₂ (calls row || calls col) (.place s₅.temp) s₅.nextTemp q₁ _ v q₄ :=
      (hq₄.after hq₃.went hc.supplied.temps fun h => ⟨rfl, hq₃.world h⟩).after hq₂.went hrow.temps
        fun h => ⟨(Bool.or_eq_false_iff.1 h).2, hq₂.world (Bool.or_eq_false_iff.1 h).1⟩
    refine hindices.after hq₁.went hs₂.temps fun h => ?_
    rw [calls, Bool.or_assoc, Bool.or_eq_false_iff] at h
    exact ⟨h.2, hq₁.world h.1⟩
termination_by structural e

theorem ArgumentsCode.tracks (hσ : Plays code image n depth c σ) (es : List Expr) :
    ∀ {params : List Ty} {s s' : State} {piece : List Instr} {k : Nat} {p : Point},
    ArgumentsCode c s params es piece s' → s.line = line → CodeAt code k piece →
    Stands σ.function depth k p →
    Tracks image n p (ArgumentsPassed s (callsAny es) es p (k + piece.length))
      (Direct.arguments σ line params es p.world) := by
  intro params s s' piece k p h hline hat hp
  cases h with
  | nil =>
    rw [Direct.arguments]
    exact .pure ⟨.refl _ hp.pc, rfl, fun _ => rfl⟩
  | @cons _ s₁ _ _ e es _ rest a he hes =>
    cases he with
    | @mk _ s₀ _ _ _ code' widening a₀ _ he hw =>
      simp only [codeAt_append, codeAt_singleton, List.length_append, List.length_singleton,
        ← Nat.add_assoc] at hat ⊢
      obtain ⟨⟨⟨hate, hatw⟩, hatp⟩, hatr⟩ := hat
      have hs₀ := he.supplied
      have hs₁ := hs₀.append hw.supplied
      rw [Direct.arguments, ← bind_assoc]
      refine (hw.tracks_after hσ.ready hs₀.temps (hs₀.line.trans hline) hatw
        (ExprCode.tracks hσ e he hline hate hp)).bind fun c₁ q₁ hq₁ => ?_
      rw [State.instr, hs₁.line.trans hline] at hatp
      refine (tracks_param hσ.ready s₁.temps hq₁.went.pc hatp hq₁.captures.eval).bind
        fun v q₂ ⟨hworld, hwent⟩ => ?_
      rw [hq₁.went.args] at hwent
      have hq₂ := hq₁.went.trans hwent hs₁.temps
      refine (ArgumentsCode.tracks hσ es hes (hs₁.line.trans hline) hatr
        (hp.went hq₂)).bind fun vs q₃ hq₃ => .pure ⟨?_, ?_, fun h => ?_⟩
      · have hw₃ := hq₃.went
        rw [hq₂.args] at hw₃
        rw [List.reverse_cons, List.append_assoc]
        exact hq₂.trans hw₃ hs₁.temps
      · exact congrArg (· + 1) hq₃.length
      · rw [callsAny, Bool.or_eq_false_iff] at h
        exact (hq₃.world h.2).trans (hworld.trans (hq₁.world h.1))
termination_by structural es

theorem ElementsCode.tracks (hσ : Plays code image n depth c σ) (es : List Expr) :
    ∀ {t i : Nat} {element : Ty} {s s' : State} {piece : List Instr} {k : Nat} {p : Point}
    {v : Value},
    ElementsCode c (.temp t) element s i es piece s' → s.line = line → CodeAt code k piece →
    Stands σ.function depth k p → t < s.temps →
    p.machine.frame.temps.get? t = some v →
    Tracks image n p (Kept t (callsAny es) p (k + piece.length))
      (Direct.elements σ line element i v es p.world) := by
  intro t i element s s' piece k p v h hline hat hp ht hv
  cases h with
  | nil =>
    rw [Direct.elements]
    exact .pure ⟨.refl _ hp.pc, hv, fun _ => rfl⟩
  | @cons _ _ _ s₁ _ _ e es _ rest a he hes =>
    cases he with
    | @mk _ s₀ _ _ _ code' widening a₀ _ he hw =>
      simp only [codeAt_append, codeAt_singleton, List.length_append, List.length_singleton,
        ← Nat.add_assoc] at hat ⊢
      obtain ⟨⟨⟨hate, hatw⟩, hatf⟩, hatr⟩ := hat
      have hs₀ := he.supplied
      have hs₁ := hs₀.append hw.supplied
      rw [Direct.elements]
      refine (ExprCode.tracks hσ e he hline hate hp).bind fun c₁ q₁ hq₁ => ?_
      refine (tracks_fill hσ.ready none hw (hs₀.line.trans hline) ht hs₀.temps hatw hatf
        hv hq₁).bind fun w q₂ hq₂ => ?_
      refine (ElementsCode.tracks hσ es hes (hs₁.line.trans hline) hatr
        (hp.went hq₂.went) (Nat.lt_of_lt_of_le ht hs₁.temps) hq₂.value).mono
          fun w' q₃ hq₃ => hq₃.after hq₂ fun h => ?_
      rwa [callsAny, Bool.or_eq_false_iff, and_comm] at h
termination_by structural es

theorem EntriesCode.tracks (hσ : Plays code image n depth c σ) (es : List Expr) :
    ∀ {t row i : Nat} {s s' : State} {piece : List Instr} {k : Nat} {p : Point} {v : Value},
    EntriesCode c (.temp t) row s i es piece s' → s.line = line → CodeAt code k piece →
    Stands σ.function depth k p → t < s.temps →
    p.machine.frame.temps.get? t = some v →
    Tracks image n p (Kept t (callsAny es) p (k + piece.length))
      (Direct.entries σ line row i v es p.world) := by
  intro t row i s s' piece k p v h hline hat hp ht hv
  cases h with
  | nil =>
    rw [Direct.entries]
    exact .pure ⟨.refl _ hp.pc, hv, fun _ => rfl⟩
  | @cons _ _ _ s₁ _ _ e es _ rest a he hes =>
    cases he with
    | @mk _ s₀ _ _ _ code' widening a₀ _ he hw =>
      simp only [codeAt_append, codeAt_singleton, List.length_append, List.length_singleton,
        ← Nat.add_assoc] at hat ⊢
      obtain ⟨⟨⟨hate, hatw⟩, hatf⟩, hatr⟩ := hat
      have hs₀ := he.supplied
      have hs₁ := hs₀.append hw.supplied
      rw [Direct.entries]
      refine (ExprCode.tracks hσ e he hline hate hp).bind fun c₁ q₁ hq₁ => ?_
      refine (tracks_fill hσ.ready (some i) hw (hs₀.line.trans hline) ht hs₀.temps hatw hatf
        hv hq₁).bind fun w q₂ hq₂ => ?_
      refine (EntriesCode.tracks hσ es hes (hs₁.line.trans hline) hatr
        (hp.went hq₂.went) (Nat.lt_of_lt_of_le ht hs₁.temps) hq₂.value).mono
          fun w' q₃ hq₃ => hq₃.after hq₂ fun h => ?_
      rwa [callsAny, Bool.or_eq_false_iff, and_comm] at h
termination_by structural es

theorem RowsCode.tracks (hσ : Plays code image n depth c σ) (rows : List (List Expr)) :
    ∀ {t i : Nat} {s s' : State} {piece : List Instr} {k : Nat} {p : Point} {v : Value},
    RowsCode c (.temp t) s i rows piece s' → s.line = line → CodeAt code k piece →
    Stands σ.function depth k p → t < s.temps →
    p.machine.frame.temps.get? t = some v →
    Tracks image n p (Kept t (callsAnyRow rows) p (k + piece.length))
      (Direct.matrixRows σ line i v rows p.world) := by
  intro t i s s' piece k p v h hline hat hp ht hv
  cases h with
  | nil =>
    rw [Direct.matrixRows]
    exact .pure ⟨.refl _ hp.pc, hv, fun _ => rfl⟩
  | @cons _ _ s₁ _ _ es rows _ rest he hes =>
    simp only [codeAt_append, List.length_append, ← Nat.add_assoc] at hat ⊢
    have hs₁ := he.supplied
    rw [Direct.matrixRows]
    refine (EntriesCode.tracks hσ es he hline hat.1 hp ht hv).bind fun w q₁ hq₁ => ?_
    refine (RowsCode.tracks hσ rows hes (hs₁.line.trans hline) hat.2 (hp.went hq₁.went)
      (Nat.lt_of_lt_of_le ht hs₁.temps) hq₁.value).mono
        fun w' q₂ hq₂ => hq₂.after hq₁ fun h => ?_
    rwa [callsAnyRow, Bool.or_eq_false_iff, and_comm] at h
termination_by structural rows

end

end

end Lowering

end NumericScript
