import Mathlib
import NumericScript.Proofs.Checked.Run
import NumericScript.Proofs.Optimize.Strength

/-! # Where cheaper operations are exact

A cheaper form of an operation gives the same on numbers and on matrices, as far as the doubles in
them obey the identities that the form rests on.  On other values it does not: an operation that
does not apply to them is replaced by a copy, which applies to everything, by a sum, which applies
to texts as well, or by a product, whose fault names another operator.

* `Value.Scales`: numbers and matrices.
* `Cheaper.effect_iff`: a cheaper form does the same if and only if its operand is one of them.
* `Code.execute_strength_iff`: and so it is with what the pass replaces, wherever a run is. -/

namespace NumericScript

/-! ### Identities -/

/-- What doubling a double and leaving it alone rest on. -/
structure Double.ProductExact (x : Double) : Prop where
  one_right : x * .ofInt64 1 = x
  one_left : .ofInt64 1 * x = x
  two_right : x * .ofInt64 2 = x + x
  two_left : .ofInt64 2 * x = x + x

/-- What multiplying a double by the reciprocal of a power of two rests on. -/
structure Double.QuotientExact (x : Double) : Prop where
  one : x / .ofInt64 1 = x
  power : ∀ p k, reciprocalPower? p = some k → x / p = x * k

/-- The identities of doubles that the cheaper forms of an operator rest on. -/
def BinaryOp.Exact : BinaryOp → Double → Prop
  | .mul, x => x.ProductExact
  | .div, x => x.QuotientExact
  | .pow, x => x.pow (.ofInt64 2) = x * x
  | _, _ => True

namespace Value

/-- The doubles that operators compute with when they meet a value. -/
def doubles : Value → List Double
  | int n => [.ofInt64 n]
  | float x => [x]
  | matrix m => m.data.toList
  | _ => []

/-- Whether a value is a number or a matrix. -/
def Scales : Value → Prop
  | int _ | float _ | matrix _ => True
  | _ => False

end Value

/-! ### Powers of two -/

namespace Double

/-- Powers of two are not zero. -/
theorem beq_zero_of_reciprocalPower? {p k : Double} (h : reciprocalPower? p = some k) :
    (p == 0.0) = false := by
  rw [Bool.eq_false_iff]
  intro hzero
  cases p with
  | nan negative => cases h
  | number x hx =>
    have hbeq : (x == 0.0) = true := hzero
    rcases (Float.beq_iff_ne_nan_and_eq.1 hbeq).2.2 with rfl | ⟨rfl, -⟩ | ⟨rfl, -⟩ <;> cases h

end Double

/-! ### Matrices -/

namespace Matrix

variable {m : Matrix} {f g : Double → Double}

theorem ofFn_congr {rows cols : Nat} {f g : Nat → Nat → Double}
    (h : ∀ r c, r < rows → c < cols → f r c = g r c) : ofFn rows cols f = ofFn rows cols g := by
  unfold ofFn
  congr 2
  funext k
  have hcols : 0 < cols := Nat.pos_of_ne_zero fun h0 => by
    have hk := k.isLt
    simp [h0] at hk
  exact h _ _ (Nat.div_lt_of_lt_mul (Nat.mul_comm rows cols ▸ k.isLt)) (Nat.mod_lt _ hcols)

theorem WellFormed.ofFn_entry (h : m.WellFormed) : ofFn m.rows m.cols m.entry = m := by
  cases m with
  | mk rows cols data =>
    simp only [ofFn, Matrix.mk.injEq, true_and]
    refine Array.ext (by simpa using h.symm) fun k hk hk' => ?_
    rw [Array.getElem_ofFn, entry, Nat.div_add_mod', Array.getD, dif_pos hk']
    rfl

theorem WellFormed.entry_mem (h : m.WellFormed) {r c : Nat} (hr : r < m.rows) (hc : c < m.cols) :
    m.entry r c ∈ m.data.toList := by
  have hlt := h.offset_lt hr hc
  rw [entry, Array.getD, dif_pos hlt]
  exact Array.getElem_mem_toList hlt

theorem WellFormed.map_congr (h : m.WellFormed) (hfg : ∀ x ∈ m.data.toList, f x = g x) :
    m.map f = m.map g :=
  ofFn_congr fun _ _ hr hc => hfg _ (h.entry_mem hr hc)

theorem WellFormed.map_eq_self (h : m.WellFormed) (hf : ∀ x ∈ m.data.toList, f x = x) :
    m.map f = m :=
  (h.map_congr (g := id) hf).trans h.ofFn_entry

theorem zipWith_self (op : BinaryOp) (f : Double → Double → Double) (m : Matrix) :
    m.zipWith op f m = .ok (m.map fun x => f x x) := if_pos ⟨rfl, rfl⟩

end Matrix

/-! ### Values -/

/-- What a function does to floats and to the entries of matrices. -/
structure Entrywise (g : Value → Except Fault Value) (h : Double → Double) : Prop where
  float : ∀ x, g (.float x) = .ok (.float (h x))
  matrix : ∀ m : Matrix, m.WellFormed → g (.matrix m) = .ok (.matrix (m.map h))

theorem entrywise_ok : Entrywise .ok id where
  float := fun _ => rfl
  matrix := fun _ hm => congrArg (fun m => Except.ok (Value.matrix m))
    (hm.map_eq_self fun _ _ => rfl).symm

theorem entrywise_mul_right {w : Value} {k : Double} (hw : w.asDouble = .ok k) :
    Entrywise (BinaryOp.mul.apply · w) (· * k) := by
  cases w <;> cases hw <;> exact ⟨fun x => rfl, fun m _ => rfl⟩

theorem entrywise_mul_left {w : Value} {k : Double} (hw : w.asDouble = .ok k) :
    Entrywise (BinaryOp.mul.apply w ·) (k * ·) := by
  cases w <;> cases hw <;> exact ⟨fun x => rfl, fun m _ => rfl⟩

theorem entrywise_div {w : Value} {k : Double} (hw : w.asDouble = .ok k)
    (hk : (k == 0.0) = false) : Entrywise (BinaryOp.div.apply · w) (· / k) := by
  cases w <;> cases hw <;>
    refine ⟨fun x => ?_, fun m _ => ?_⟩ <;>
    simp [BinaryOp.apply, Arithmetic.doubles, Arithmetic.scaled, Value.asDouble, hk, bind,
      Except.bind, pure, Except.pure]

theorem entrywise_double : Entrywise (fun v => BinaryOp.add.apply v v) fun x => x + x where
  float := fun _ => rfl
  matrix := fun m _ => congrArg (Except.map Value.matrix) (Matrix.zipWith_self .add (· + ·) m)

/-- Functions that do the same to doubles do the same to what is made of them. -/
theorem Entrywise.eq {g g' : Value → Except Fault Value} {h h' : Double → Double}
    (hg : Entrywise g h) (hg' : Entrywise g' h') {v : Value} (hs : v.Scales) (hv : v.Sound)
    (hx : ∀ x ∈ v.doubles, h x = h' x) (hint : ∀ n, v = .int n → g v = g' v) : g v = g' v := by
  cases v with
  | int n => exact hint n rfl
  | float x => rw [hg.float, hg'.float, hx x (List.mem_singleton_self x)]
  | matrix m => rw [hg.matrix m hv, hg'.matrix m hv, Matrix.WellFormed.map_congr hv hx]
  | _ => cases hs

/-- And if they differ on all that is neither number nor matrix, they do the same to nothing
else. -/
theorem Entrywise.eq_iff {g g' : Value → Except Fault Value} {h h' : Double → Double}
    (hg : Entrywise g h) (hg' : Entrywise g' h') {v : Value} (hv : v.Sound)
    (hx : ∀ x ∈ v.doubles, h x = h' x) (hint : ∀ n, v = .int n → g v = g' v)
    (hne : ¬ v.Scales → g v ≠ g' v) : g v = g' v ↔ v.Scales :=
  ⟨fun heq => by_contra fun hs => hne hs heq, fun hs => hg.eq hg' hs hv hx hint⟩

namespace Value

variable {v w : Value}

theorem scales_of_isNumber (h : v.isNumber = true) : v.Scales := by
  cases v <;> trivial

/-- Operators between a number and what is neither number nor matrix do not apply. -/
theorem apply_number_of_not_scales (f : BinaryOp) (hv : ¬ v.Scales) (hw : w.isNumber = true) :
    f.apply v w = .error (.invalidOperands f v.kind w.kind) ∧
      f.apply w v = .error (.invalidOperands f w.kind v.kind) := by
  cases w <;> cases hw <;> cases v <;> first | exact absurd trivial hv | exact ⟨rfl, rfl⟩

/-- A sum of such values does not fault in the name of a product. -/
theorem add_self_ne (hv : ¬ v.Scales) (k k' : Kind) :
    BinaryOp.add.apply v v ≠ .error (.invalidOperands .mul k k') := by
  cases v <;> first | exact absurd trivial hv | nofun

theorem mul_one_right_iff (hv : v.Sound) (hx : ∀ x ∈ v.doubles, x.ProductExact) :
    BinaryOp.mul.apply v (.int 1) = .ok v ↔ v.Scales := by
  refine (entrywise_mul_right rfl).eq_iff entrywise_ok hv (fun x h => (hx x h).one_right) ?_ ?_
  · rintro n rfl
    exact congrArg (fun n => Except.ok (int n)) (Int64.mul_one n)
  · intro hs
    rw [(apply_number_of_not_scales .mul hs rfl).1]
    nofun

theorem mul_one_left_iff (hv : v.Sound) (hx : ∀ x ∈ v.doubles, x.ProductExact) :
    BinaryOp.mul.apply (.int 1) v = .ok v ↔ v.Scales := by
  refine (entrywise_mul_left rfl).eq_iff entrywise_ok hv (fun x h => (hx x h).one_left) ?_ ?_
  · rintro n rfl
    exact congrArg (fun n => Except.ok (int n)) (Int64.one_mul n)
  · intro hs
    rw [(apply_number_of_not_scales .mul hs rfl).2]
    nofun

theorem div_one_iff (hv : v.Sound) (hx : ∀ x ∈ v.doubles, x.QuotientExact) :
    BinaryOp.div.apply v (.int 1) = .ok v ↔ v.Scales := by
  have hone : (Double.ofInt64 1 == 0.0) = false := by decide +kernel
  refine (entrywise_div rfl hone).eq_iff entrywise_ok hv (fun x h => (hx x h).one) ?_ ?_
  · rintro n rfl
    exact congrArg (fun n => Except.ok (int n)) Int64.div_one
  · intro hs
    rw [(apply_number_of_not_scales .div hs rfl).1]
    nofun

theorem mul_two_right_iff (hv : v.Sound) (hx : ∀ x ∈ v.doubles, x.ProductExact) :
    BinaryOp.mul.apply v (.int 2) = BinaryOp.add.apply v v ↔ v.Scales := by
  refine (entrywise_mul_right rfl).eq_iff entrywise_double hv (fun x h => (hx x h).two_right) ?_ ?_
  · rintro n rfl
    exact congrArg (fun n => Except.ok (int n)) Int64.mul_two
  · intro hs
    rw [(apply_number_of_not_scales .mul hs rfl).1]
    exact (add_self_ne hs _ _).symm

theorem mul_two_left_iff (hv : v.Sound) (hx : ∀ x ∈ v.doubles, x.ProductExact) :
    BinaryOp.mul.apply (.int 2) v = BinaryOp.add.apply v v ↔ v.Scales := by
  refine (entrywise_mul_left rfl).eq_iff entrywise_double hv (fun x h => (hx x h).two_left) ?_ ?_
  · rintro n rfl
    exact congrArg (fun n => Except.ok (int n)) Int64.two_mul
  · intro hs
    rw [(apply_number_of_not_scales .mul hs rfl).2]
    exact (add_self_ne hs _ _).symm

theorem div_power_iff {p k : Double} (hk : reciprocalPower? p = some k) (hv : v.Sound)
    (hx : ∀ x ∈ v.doubles, x.QuotientExact) :
    BinaryOp.div.apply v (.float p) = BinaryOp.mul.apply v (.float k) ↔ v.Scales := by
  have hp := Double.beq_zero_of_reciprocalPower? hk
  refine (entrywise_div rfl hp).eq_iff (entrywise_mul_right rfl) hv
    (fun x h => (hx x h).power p k hk) ?_ ?_
  · rintro n rfl
    -- a whole number is computed with as the double that it is
    have hfloat := (entrywise_div (w := .float p) rfl hp).float (.ofInt64 n)
    exact hfloat.trans (congrArg (fun x => Except.ok (float x))
      ((hx _ (List.mem_singleton_self _)).power p k hk))
  · intro hs
    rw [(apply_number_of_not_scales .div hs rfl).1, (apply_number_of_not_scales .mul hs rfl).1]
    nofun

theorem pow_two_of_isNumber (hn : v.isNumber = true)
    (hx : ∀ x ∈ v.doubles, x.pow (.ofInt64 2) = x * x) :
    BinaryOp.pow.apply v (.int 2) = BinaryOp.mul.apply v v := by
  cases v with
  | int n =>
    have hpow : Arithmetic.pow n 2 = n * n := by
      rw [Arithmetic.pow_eq, Int64.pow_succ, Int64.pow_succ, Int64.pow_zero, Int64.one_mul]
    exact congrArg (fun n => Except.ok (int n)) hpow
  | float x => exact congrArg (fun x => Except.ok (float x)) (hx x (List.mem_singleton_self x))
  | _ => cases hn

end Value

/-! ### Effects -/

section

variable {m : Machine} {d : Place} {o : Operand}

theorem Machine.effect_copy : m.effect (.copy d o) = some (d, m.eval o >>= .ok) := by
  rw [effect]
  cases m.eval o <;> rfl

theorem Machine.effect_self (f : BinaryOp) :
    m.effect (.binary d f o o) = some (d, m.eval o >>= fun v => f.apply v v) := by
  rw [effect]
  cases m.eval o <;> rfl

/-- Operations that make something of the same operand have the same effect if they make the same
of its value. -/
theorem Machine.effect_eq_iff {op op' : Op} {g g' : Value → Except Fault Value}
    (h : m.effect op = some (d, m.eval o >>= g)) (h' : m.effect op' = some (d, m.eval o >>= g'))
    (hiff : ∀ v, m.eval o = .ok v → (g v = g' v ↔ v.Scales)) :
    m.effect op = m.effect op' ↔ ∀ v, m.eval o = .ok v → v.Scales := by
  rw [h, h']
  cases hv : m.eval o with
  | error e => exact ⟨fun _ => nofun, fun _ => rfl⟩
  | ok v =>
    have hgv : some (d, Except.ok v >>= g) = some (d, Except.ok v >>= g') ↔ g v = g' v := by
      rw [Option.some_inj, Prod.mk.injEq, and_iff_right rfl]
      exact Iff.rfl
    rw [hgv, hiff v hv]
    exact ⟨fun hs w hw => by cases hw; exact hs, fun hs => hs v rfl⟩

end

/-- A cheaper form of an operation does the same if and only if what the operation is applied to
are numbers and matrices. -/
theorem Cheaper.effect_iff {s : Scalars} {d : Place} {f : BinaryOp} {l r : Operand} {op : Op}
    (h : Cheaper s d f l r op) (hconst : l.isConst = false ∨ r.isConst = false) {m : Machine}
    (hm : m.Sound) (hs : ∀ o v, s.holds o = true → m.eval o = .ok v → v.isNumber = true)
    (hx : ∀ o ∈ [l, r], o.isConst = false → ∀ v, m.eval o = .ok v → ∀ x ∈ v.doubles, f.Exact x) :
    m.effect (.binary d f l r) = m.effect op ↔
      ∀ o ∈ [l, r], ∀ v, m.eval o = .ok v → v.Scales := by
  have hscales : ∀ c : Constant, c.toValue.Scales → ∀ v, m.eval (.const c) = .ok v → v.Scales := by
    rintro c hc _ ⟨⟩
    exact hc
  rw [List.forall_mem_cons, List.forall_mem_singleton] at hx ⊢
  cases h with
  | one_right hf =>
    have hxl := hx.1 (hconst.resolve_right nofun)
    rw [and_iff_left (hscales (.int 1) trivial)]
    refine Machine.effect_eq_iff rfl Machine.effect_copy fun v hv => ?_
    rcases hf with rfl | rfl
    · exact Value.mul_one_right_iff (hm.eval hv) (hxl v hv)
    · exact Value.div_one_iff (hm.eval hv) (hxl v hv)
  | one_left =>
    have hxr := hx.2 (hconst.resolve_left nofun)
    rw [and_iff_right (hscales (.int 1) trivial)]
    exact Machine.effect_eq_iff rfl Machine.effect_copy fun v hv =>
      Value.mul_one_left_iff (hm.eval hv) (hxr v hv)
  | two_right =>
    have hxl := hx.1 (hconst.resolve_right nofun)
    rw [and_iff_left (hscales (.int 2) trivial)]
    exact Machine.effect_eq_iff rfl (Machine.effect_self .add) fun v hv =>
      Value.mul_two_right_iff (hm.eval hv) (hxl v hv)
  | two_left =>
    have hxr := hx.2 (hconst.resolve_left nofun)
    rw [and_iff_right (hscales (.int 2) trivial)]
    exact Machine.effect_eq_iff rfl (Machine.effect_self .add) fun v hv =>
      Value.mul_two_left_iff (hm.eval hv) (hxr v hv)
  | @power _ p k hk =>
    have hxl := hx.1 (hconst.resolve_right nofun)
    rw [and_iff_left (hscales (.float p) trivial)]
    exact Machine.effect_eq_iff rfl rfl fun v hv =>
      Value.div_power_iff hk (hm.eval hv) (hxl v hv)
  | square ho =>
    have hxl := hx.1 (hconst.resolve_right nofun)
    rw [and_iff_left (hscales (.int 2) trivial)]
    exact Machine.effect_eq_iff rfl (Machine.effect_self .mul) fun v hv =>
      iff_of_true (Value.pow_two_of_isNumber (hs l v ho hv) (hxl v hv))
        (Value.scales_of_isNumber (hs l v ho hv))

/-! ### Outcomes -/

namespace Machine

variable {image : Image} {m : Machine} {d : Place}

theorem flow_write_inj {v w : Value} (h : Flow.write m d v = Flow.write m d w) : v = w := by
  have hwrite : (m.write d v).next = (m.write d w).next := Flow.go.inj h
  have hread := congrArg (fun m => Machine.read? m d) hwrite
  simpa [read?_write] using hread

/-- Operations that give the same place a value have the same outcome if and only if they have the
same effect. -/
theorem execute_eq_iff {op op' : Op} {x y : Except Fault Value} (h : m.effect op = some (d, x))
    (h' : m.effect op' = some (d, y)) :
    execute image m op = execute image m op' ↔ m.effect op = m.effect op' := by
  rw [execute_of_effect h, execute_of_effect h', h, h', Option.some_inj, Prod.mk.injEq,
    and_iff_right rfl]
  refine ⟨fun heq => ?_, fun heq => by rw [heq]⟩
  cases x with
  | error e =>
    cases y with
    | error e' => exact congrArg Except.error (Except.error.inj heq)
    | ok w => cases heq
  | ok v =>
    cases y with
    | error e' => cases heq
    | ok w => exact congrArg Except.ok (flow_write_inj (Except.ok.inj heq))

end Machine

/-- What the pass replaces is an operation that has a cheaper form. -/
theorem exists_cheaper_of_ne {code : List Instr} {k : Nat} {i j : Instr} (hi : code[k]? = some i)
    (hj : (strength code).code[k]? = some j) (hne : j.op ≠ i.op) :
    i.op.cheaper? (scalarsAt .none code k) = some j.op ∧ j.line = i.line := by
  rw [strength, getElem?_strengthFrom, hi, Option.map_some, Option.some_inj] at hj
  subst hj
  cases h : i.op.cheaper? (scalarsAt .none code k) with
  | none =>
    rw [h] at hne
    exact absurd rfl hne
  | some op => exact ⟨rfl, rfl⟩

theorem isConst_of_cheaper? {s : Scalars} {d : Place} {f : BinaryOp} {l r : Operand} {op : Op}
    (h : (Op.binary d f l r).cheaper? s = some op) : l.isConst = false ∨ r.isConst = false := by
  rw [Op.cheaper?] at h
  split at h
  · cases h
  · rename_i hconst
    rwa [Bool.and_eq_true, not_and_or, Bool.not_eq_true, Bool.not_eq_true] at hconst

/-- A cheaper form writes the place that the operation writes. -/
theorem Cheaper.exists_effect {s : Scalars} {d : Place} {f : BinaryOp} {l r : Operand} {op : Op}
    (h : Cheaper s d f l r op) (m : Machine) : ∃ x, m.effect op = some (d, x) := by
  cases h <;> exact ⟨_, rfl⟩

namespace Code

/-- Wherever a run is, an operation that the pass replaces has the same outcome as before if and
only if what it is applied to are numbers and matrices, as far as doubles obey the identities that
its cheaper form rests on. -/
theorem execute_strength_iff {c : Code} {settings : MachineSettings} {image : Image}
    (himage : Image.ofCode c settings = .ok image) {lines : List String} {q : Point}
    (hq : image.Reaches (image.startPoint lines) q) {i j : Instr}
    (hi : c.instrs[q.machine.pc]? = some i)
    (hj : (strength c.instrs).code[q.machine.pc]? = some j) (hne : j.op ≠ i.op) :
    j.line = i.line ∧ ∃ d f l r, i.op = .binary d f l r ∧
      ((∀ o ∈ [l, r], o.isConst = false → ∀ v, q.machine.eval o = .ok v →
          ∀ x ∈ v.doubles, f.Exact x) →
        (Machine.execute image q.machine i.op = Machine.execute image q.machine j.op ↔
          ∀ o ∈ [l, r], ∀ v, q.machine.eval o = .ok v → v.Scales)) := by
  obtain ⟨hl, rfl⟩ := ofCode_eq_ok_iff.1 himage
  obtain ⟨hcheaper, hline⟩ := exists_cheaper_of_ne hi hj hne
  obtain ⟨d, f, l, r, hop, hc⟩ := cheaper_of_cheaper? hcheaper
  have hsound : q.machine.Sound := .reaches hq
  have hknown := known_of_reaches hl hq
  have hlabel : i.op.label? = none := by
    rw [hop]
    rfl
  rw [hop] at hcheaper ⊢
  obtain ⟨x, hx⟩ := hc.exists_effect q.machine
  refine ⟨hline, d, f, l, r, rfl, fun hexact => (Machine.execute_eq_iff rfl hx).trans ?_⟩
  exact hc.effect_iff (isConst_of_cheaper? hcheaper) hsound
    (fun o v ho hv => isNumber_of_holds hi hlabel hknown.1 ho hv) hexact

/-- Code that multiplies a value. -/
def multiplying (value : Constant) (factor : Int64) : Code where
  instrs := [⟨.assign (.temp 0) value, 1⟩,
    ⟨.binary (.temp 1) .mul (.place (.temp 0)) (.const (.int factor)), 1⟩,
    ⟨.print (.place (.temp 1)) true, 1⟩, ⟨.halt, 2⟩]
  functions := []

/-- Two and a half is doubled by adding it to itself. -/
theorem execute_strength_double :
    ∃ image q i j, Image.ofCode (multiplying (.float 2.5) 2) {} = .ok image ∧
      image.Reaches (image.startPoint []) q ∧
      (multiplying (.float 2.5) 2).instrs[q.machine.pc]? = some i ∧
      (strength (multiplying (.float 2.5) 2).instrs).code[q.machine.pc]? = some j ∧
      j.op = .binary (.temp 1) .add (.place (.temp 0)) (.place (.temp 0)) ∧
      Machine.execute image q.machine i.op = Machine.execute image q.machine j.op := by
  have hexact : (2.5 : Double).ProductExact :=
    ⟨by decide +kernel, by decide +kernel, by decide +kernel, by decide +kernel⟩
  obtain ⟨image, himage⟩ : ∃ image, Image.ofCode (multiplying (.float 2.5) 2) {} = .ok image :=
    ⟨_, rfl⟩
  obtain ⟨q, hq, hpc, heval⟩ : ∃ q, image.Reaches (image.startPoint []) q ∧ q.machine.pc = 1 ∧
      q.machine.eval (.place (.temp 0)) = .ok (.float 2.5) := by
    cases himage
    exact ⟨_, .tail .refl rfl, rfl, rfl⟩
  have hi : (multiplying (.float 2.5) 2).instrs[q.machine.pc]? = some
      ⟨.binary (.temp 1) .mul (.place (.temp 0)) (.const (.int 2)), 1⟩ := by rw [hpc]; rfl
  have hj : (strength (multiplying (.float 2.5) 2).instrs).code[q.machine.pc]? = some
      ⟨.binary (.temp 1) .add (.place (.temp 0)) (.place (.temp 0)), 1⟩ := by rw [hpc]; rfl
  obtain ⟨-, d, f, l, r, hop, hiff⟩ := execute_strength_iff himage hq hi hj nofun
  cases hop
  refine ⟨image, q, _, _, himage, hq, hi, hj, rfl, (hiff ?_).2 ?_⟩
  · rintro o ho hconst v hv x hx
    rcases List.mem_pair.1 ho with rfl | rfl
    · rw [heval] at hv
      cases hv
      rw [List.mem_singleton.1 hx]
      exact hexact
    · cases hconst
  · rintro o ho v hv
    rcases List.mem_pair.1 ho with rfl | rfl
    · rw [heval] at hv
      cases hv
      trivial
    · cases hv
      trivial

/-- A text that is multiplied by one is not a fault any more. -/
theorem not_execute_strength_text : ¬ ∀ (c : Code) (settings : MachineSettings) (image : Image)
    (lines : List String) (q : Point) (i j : Instr), Image.ofCode c settings = .ok image →
    image.Reaches (image.startPoint lines) q → c.instrs[q.machine.pc]? = some i →
    (strength c.instrs).code[q.machine.pc]? = some j →
    (∀ d f l r, i.op = .binary d f l r → ∀ o ∈ [l, r], o.isConst = false → ∀ v,
      q.machine.eval o = .ok v → ∀ x ∈ v.doubles, f.Exact x) →
    Machine.execute image q.machine i.op = Machine.execute image q.machine j.op := by
  intro h
  obtain ⟨image, himage⟩ : ∃ image, Image.ofCode (multiplying (.str "x") 1) {} = .ok image :=
    ⟨_, rfl⟩
  obtain ⟨q, hq, hpc, heval⟩ : ∃ q, image.Reaches (image.startPoint []) q ∧ q.machine.pc = 1 ∧
      q.machine.eval (.place (.temp 0)) = .ok (.str "x") := by
    cases himage
    exact ⟨_, .tail .refl rfl, rfl, rfl⟩
  have hi : (multiplying (.str "x") 1).instrs[q.machine.pc]? = some
      ⟨.binary (.temp 1) .mul (.place (.temp 0)) (.const (.int 1)), 1⟩ := by rw [hpc]; rfl
  have hj : (strength (multiplying (.str "x") 1).instrs).code[q.machine.pc]? = some
      ⟨.copy (.temp 1) (.place (.temp 0)), 1⟩ := by rw [hpc]; rfl
  have heq := h _ _ _ _ _ _ _ himage hq hi hj fun d f l r hop o ho hconst v hv x hx => by
    cases hop
    rcases List.mem_pair.1 ho with rfl | rfl
    · rw [heval] at hv
      cases hv
      cases hx
    · cases hconst
  rw [Machine.execute_of_effect (rfl : q.machine.effect _ = _),
    Machine.execute_of_effect (rfl : q.machine.effect _ = _), heval] at heq
  cases heq

end Code

end NumericScript
