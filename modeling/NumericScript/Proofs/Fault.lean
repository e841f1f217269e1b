import NumericScript.Proofs.Step
import NumericScript.Proofs.Typing.Builtin

/-! # Where faults come from

Operators, builtins and the elements of containers know values only, so the faults that they raise
say something of values.  Faults that speak of variables, labels, functions or limits come from the
machine itself.

* `Fault.isOfValues`: the faults that say something of values.
* `OfValues.apply`, `OfValues.call`: operators and builtins raise no others, and only one builtin
  comes upon a number that does not fit.
* `Machine.blames_of_execute`: where the fault of an operation comes from.
* `Machine.execute_eq_overflow`: a number that does not fit comes up in calls of that builtin. -/

namespace NumericScript

open Machine (bind_eq_ok)

/-- Whether a fault says something of values, and not of the variables, labels, functions and limits
of the machine, or of a number that does not fit. -/
def Fault.isOfValues : Fault → Bool
  | .stackDepthExceeded _ | .missingReturn _ | .inputCancelled | .stepLimitExceeded _
  | .unknownLabel _ | .undefinedVariable _ | .undefinedFunction _ | .overflow => false
  | _ => true

/-- A computation on values faults for the sake of values only. -/
def OfValues {α : Type} (x : Except Fault α) : Prop := ∀ f, x = .error f → f.isOfValues = true

namespace OfValues

variable {α β : Type} {x : Except Fault α}

theorem ne_overflow (h : OfValues x) : x ≠ .error .overflow := fun hx => by cases h _ hx

theorem ok (a : α) : OfValues (.ok a : Except Fault α) := nofun

theorem error {f : Fault} (h : f.isOfValues = true) : OfValues (.error f : Except Fault α) := by
  rintro _ ⟨⟩
  exact h

theorem bind {g : α → Except Fault β} (hx : OfValues x) (hg : ∀ a, OfValues (g a)) :
    OfValues (x >>= g) := by
  intro f h
  rcases bind_eq_error.1 h with h | ⟨a, -, h⟩
  · exact hx f h
  · exact hg a f h

theorem map {g : α → β} (hx : OfValues x) : OfValues (g <$> x) := by
  cases x with
  | ok a => exact ok (g a)
  | error e => exact error (hx e rfl)

theorem ite {c : Prop} [Decidable c] {y : Except Fault α} (hx : OfValues x) (hy : OfValues y) :
    OfValues (if c then x else y) := by
  split
  · exact hx
  · exact hy

/-! ### Values -/

theorem asInt (v : Value) : OfValues v.asInt := by
  cases v <;> first | exact ok _ | exact error rfl

theorem asDouble (v : Value) : OfValues v.asDouble := by
  cases v <;> first | exact ok _ | exact error rfl

theorem asBool (v : Value) : OfValues v.asBool := by
  cases v <;> first | exact ok _ | exact error rfl

theorem asArray (v : Value) : OfValues v.asArray := by
  cases v <;> first | exact ok _ | exact error rfl

theorem asMatrix (v : Value) : OfValues v.asMatrix := by
  cases v <;> first | exact ok _ | exact error rfl

theorem mapM_asDouble (vs : List Value) : OfValues (vs.mapM Value.asDouble) := by
  induction vs with
  | nil => exact ok []
  | cons v vs ih =>
    rw [List.mapM_cons]
    exact (asDouble v).bind fun x => ih.bind fun xs => ok (x :: xs)

theorem asNumbers (v : Value) : OfValues v.asNumbers := (asArray v).bind mapM_asDouble

/-! ### Operators -/

theorem ints (op : BinaryOp) (a b : Int64) : OfValues (Arithmetic.ints op a b) := by
  cases op <;> first | exact ok _ | exact error rfl | exact ite (error rfl) (ok _)

theorem doubles (op : BinaryOp) (a b : Double) : OfValues (Arithmetic.doubles op a b) := by
  cases op <;> first | exact ok _ | exact error rfl | exact ite (error rfl) (ok _)

theorem strs (op : BinaryOp) (a b : String) : OfValues (Arithmetic.strs op a b) := by
  cases op <;> first | exact ok _ | exact error rfl

theorem bools (op : BinaryOp) (a b : Bool) : OfValues (Arithmetic.bools op a b) := by
  cases op <;> first | exact ok _ | exact error rfl

theorem requireSquare (m : Matrix) : OfValues m.requireSquare := ite (ok _) (error rfl)

theorem eliminateAll (m n : Matrix) (left col : Nat) : OfValues (m.eliminateAll n left col) := by
  induction left generalizing m n col with
  | zero => exact ok n
  | succ left ih =>
    unfold Matrix.eliminateAll
    dsimp only
    split
    · exact error rfl
    · exact ih _ _ _

theorem inverse (m : Matrix) : OfValues m.inverse :=
  (requireSquare m).bind fun _ => eliminateAll _ _ _ _

theorem power (m : Matrix) (k : Int64) : OfValues (m.power k) := by
  unfold Matrix.power
  refine (requireSquare m).bind fun _ => ite (ok _) ?_
  by_cases hneg : k.toInt < 0
  · rw [if_pos hneg]
    exact (inverse m).bind fun _ => ok _
  · rw [if_neg hneg]
    exact ok _

theorem zipWith (op : BinaryOp) (g : Double → Double → Double) (m n : Matrix) :
    OfValues (m.zipWith op g n) := ite (ok _) (error rfl)

theorem multiply (m n : Matrix) : OfValues (m.multiply n) := ite (ok _) (error rfl)

theorem matrices (op : BinaryOp) (m n : Matrix) : OfValues (Arithmetic.matrices op m n) := by
  cases op
  case add => exact (zipWith _ _ m n).map
  case sub => exact (zipWith _ _ m n).map
  case mul => exact (multiply m n).map
  all_goals exact error rfl

theorem scaled (op : BinaryOp) (m : Matrix) (k : Value) : OfValues (Arithmetic.scaled op m k) := by
  cases op
  case mul => exact (asDouble k).bind fun _ => ok _
  case div => exact (asDouble k).bind fun _ => ite (error rfl) (ok _)
  case pow => exact (asInt k).bind fun _ => (power m _).map
  all_goals exact error rfl

theorem apply (op : BinaryOp) (a b : Value) : OfValues (op.apply a b) := by
  cases a <;> cases b
  case int.int => exact ints _ _ _
  case int.float | float.int | float.float => exact doubles _ _ _
  case str.str => exact strs _ _ _
  case bool.bool => exact bools _ _ _
  case matrix.matrix => exact matrices _ _ _
  case matrix.int | matrix.float => exact scaled _ _ _
  case int.matrix | float.matrix => exact ite (ok _) (error rfl)
  all_goals exact error rfl

theorem applyUnary (f : UnaryFn) (v : Value) : OfValues (f.apply v) := by
  cases f <;> cases v <;> first | exact ok _ | exact error rfl

/-! ### Elements and input -/

theorem checkedIndex (i : Int64) (n : Nat) : OfValues (checkedIndex i n) := ite (ok _) (error rfl)

theorem loadIndex (base : Value) (i : Int64) (j : Option Int64) :
    OfValues (base.loadIndex i j) := by
  cases base <;> cases j
  case array.none items => exact (checkedIndex i items.length).bind fun _ => ok _
  case matrix.some m c =>
    exact ((checkedIndex i m.rows).bind fun _ => (checkedIndex c m.cols).bind fun _ => ok _).map
  all_goals exact error rfl

theorem storeIndex (base : Value) (i : Int64) (j : Option Int64) (v : Value) :
    OfValues (base.storeIndex i j v) := by
  cases base <;> cases j
  case array.none items => exact (checkedIndex i items.length).bind fun _ => ok _
  case matrix.some m c =>
    exact (asDouble v).bind fun x =>
      ((checkedIndex i m.rows).bind fun _ => (checkedIndex c m.cols).bind fun _ => ok _).map
  all_goals exact error rfl

theorem ofInput (line : String) (t : Ty) : OfValues (Value.ofInput line t) := by
  intro f h
  unfold Value.ofInput at h
  cases t <;> dsimp only at h
  case str => cases h
  case int | float | bool =>
    split at h <;> cases h
    rfl
  all_goals
    cases h
    rfl

/-! ### Builtins -/

theorem logArgument (f : Builtin) (v : Value) : OfValues (f.logArgument v) :=
  (asDouble v).bind fun _ => ite (error rfl) (ok _)

theorem unitArgument (f : Builtin) (v : Value) : OfValues (f.unitArgument v) :=
  (asDouble v).bind fun _ => ite (ok _) (error rfl)

theorem nonempty (f : Builtin) (xs : List Double) : OfValues (f.nonempty xs) :=
  ite (error rfl) (ok _)

theorem several (f : Builtin) (xs : List Double) : OfValues (f.several xs) := by
  unfold Builtin.several
  split
  · exact error rfl
  · exact error rfl
  · exact ok _

theorem callOne (mode : AngleMode) (f : Builtin) (v : Value) : OfValues (f.callOne mode v) := by
  cases f
  case asin | acos => exact (unitArgument _ v).bind fun _ => ok _
  case ln | lg | log | log10 | log2 => exact (logArgument _ v).bind fun _ => ok _
  case sqrt => exact (asDouble v).bind fun _ => ite (error rfl) (ok _)
  case factorial => exact (asInt v).bind fun _ => ite (ok _) (error rfl)
  case len => exact (asArray v).bind fun _ => ok _
  case sum => exact (asNumbers v).bind fun _ => ok _
  case max | min | mean | median =>
    exact (asNumbers v).bind fun _ => (nonempty _ _).bind fun _ => ok _
  case stdev | variance => exact (asNumbers v).bind fun _ => (several _ _).bind fun _ => ok _
  case det | trace => exact (asMatrix v).bind fun m => (requireSquare m).map.bind fun _ => ok _
  case inverse => exact (asMatrix v).bind fun m => (inverse m).bind fun _ => ok _
  case transpose => exact (asMatrix v).bind fun _ => ok _
  case gcd | lcm | pi | e | degrees | radians => exact error rfl
  all_goals exact (asDouble v).bind fun _ => ok _

theorem callNone (mode : AngleMode) (f : Builtin) : OfValues (f.callNone mode) := by
  cases f <;> first | exact ok _ | exact error rfl

end OfValues

/-! ### The least common multiple -/

/-- The builtin is the least common multiple, and the quotient on the way to it does not fit. -/
def Builtin.Overflows (f : Builtin) (args : List Value) : Prop :=
  f = .lcm ∧ ∃ b, args = [.int Int64.minValue, .int b] ∧ gcdInt Int64.minValue b = -1

/-- The least common multiple is the only builtin that comes upon a number that does not fit. -/
theorem Builtin.call_of_overflows {f : Builtin} {args : List Value} {mode : AngleMode}
    (h : f.Overflows args) : f.call args mode = .error .overflow := by
  obtain ⟨rfl, b, rfl, hb⟩ := h
  have hl : lcmInt Int64.minValue b = .error .overflow := by
    unfold lcmInt
    dsimp only
    rw [hb, if_neg (by decide), if_pos ⟨rfl, rfl⟩]
  simp only [call, callTwo, Value.asInt, bind, Except.bind, hl]
  rfl

theorem OfValues.lcmInt {a b : Int64} (h : ¬ (a = Int64.minValue ∧ Builtin.gcdInt a b = -1)) :
    OfValues (Builtin.lcmInt a b) := by
  unfold Builtin.lcmInt
  dsimp only
  rw [if_neg h]
  exact ite (ok _) (ok _)

theorem OfValues.callTwo {f : Builtin} {v w : Value} (h : ¬ f.Overflows [v, w]) :
    OfValues (f.callTwo v w) := by
  cases f
  case gcd => exact (asInt v).bind fun _ => (asInt w).bind fun _ => ok _
  case lcm =>
    cases v
    case int a =>
      cases w
      case int b =>
        change OfValues (Builtin.lcmInt a b >>= fun n => Except.ok (Value.int n))
        refine (lcmInt ?_).bind fun _ => ok _
        rintro ⟨rfl, hgcd⟩
        exact h ⟨rfl, b, rfl, hgcd⟩
      all_goals exact error rfl
    all_goals exact error rfl
  case log =>
    exact (logArgument _ v).bind fun _ => (asDouble w).bind fun _ => ite (error rfl) (ok _)
  all_goals exact error rfl

/-- Any other call raises faults of values only. -/
theorem OfValues.call {f : Builtin} {args : List Value} (h : ¬ f.Overflows args)
    (mode : AngleMode) : OfValues (f.call args mode) := by
  refine ite ?_ (error rfl)
  split
  · exact callNone mode f
  · exact (callOne mode f _).bind fun _ => ok _
  · exact (callTwo h).bind fun _ => ok _
  · exact error rfl

/-! ### Messages -/

theorem take_toList_append {a : String} (b : String) {n : Nat} (h : n ≤ a.toList.length) :
    (a ++ b).toList.take n = a.toList.take n := by
  rw [String.toList_append, List.take_append_of_le_length h]

/-- The message for a missing label is that of no other fault. -/
theorem Fault.eq_unknownLabel_of_message {f : Fault} {l : String}
    (h : f.message = (Fault.unknownLabel l).message) : ∃ l', f = .unknownLabel l' := by
  -- The first three characters tell this message from all others.
  have ho : f.message.toList.take 3 = ['U', 'n', 'k'] := by
    rw [h]
    change ("Unknown label '" ++ l ++ "'").toList.take 3 = _
    rw [String.append_assoc, take_toList_append _ (by decide +kernel)]
    decide +kernel
  cases f
  case unknownLabel l' => exact ⟨l', rfl⟩
  case divisionByZero | moduloByZero | singularMatrix | inputCancelled | overflow =>
    exact absurd ho (by decide +kernel)
  case emptyArray b | tooFewValues b _ _ =>
    -- The names of builtins are short, and none begins like the message.
    have hfirst := congrArg (List.take 1) ho
    unfold Fault.message at hfirst
    dsimp only at hfirst
    rw [List.take_take] at hfirst
    try simp only [String.append_assoc] at hfirst
    rw [take_toList_append _ (by cases b <;> decide +kernel)] at hfirst
    exfalso
    revert hfirst
    cases b <;> decide +kernel
  all_goals
    unfold Fault.message at ho
    dsimp only at ho
    try simp only [String.append_assoc] at ho
    rw [take_toList_append _ (by decide +kernel)] at ho
    exact absurd ho (by decide +kernel)

/-! ### Operations of the machine -/

/-- The operands whose values an operation looks up.  An element is replaced in the container that
is there. -/
def Op.lookups : Op → List Operand
  | .store base row col o => .place base :: row :: (col.toList ++ [o])
  | op => op.operands

namespace Machine

/-- The operation is a call of the least common multiple, and the quotient on the way to it does not
fit. -/
def Overflows (m : Machine) (op : Op) : Prop :=
  ∃ f argc, op = .call (.builtin f) argc ∧ argc ≤ m.args.length ∧
    f.Overflows (m.args.take argc).reverse

/-- The faults of an operation: of the values that it looks up, of a number that does not fit, or
for want of a place, a label, a function, room for a call, or a value to return. -/
inductive Blames (image : Image) (m : Machine) : Op → Fault → Prop where
  | values {op : Op} {f : Fault} (h : f.isOfValues = true) : Blames image m op f
  | overflow {op : Op} (h : m.Overflows op) : Blames image m op .overflow
  | place {op : Op} {p : Place} (h : .place p ∈ op.lookups) (hp : m.read? p = none) :
      Blames image m op (.undefinedVariable p.text)
  | target {op : Op} {l : Label} {f : Fault} (h : op.target? = some l)
      (hl : image.position l = .error f) : Blames image m op f
  | entry {name : String} {argc : Nat} {info : FunctionInfo} {f : Fault}
      (h : image.functions.get? name = some info) (hl : image.position info.label = .error f) :
      Blames image m (.call (.user name) argc) f
  | function {name : String} {argc : Nat} (h : image.functions.get? name = none) :
      Blames image m (.call (.user name) argc) (.undefinedFunction name)
  | depth {name : String} {argc : Nat} (h : image.settings.maxCallDepth ≤ m.calls.length) :
      Blames image m (.call (.user name) argc) (.stackDepthExceeded image.settings.maxCallDepth)
  | result {o : Option Operand} {name : String} : Blames image m (.return o) (.missingReturn name)

namespace Blames

variable {image : Image} {m : Machine} {op : Op} {f : Fault} {α β : Type}

theorem of_ofValues {x : Except Fault α} (hx : OfValues x) (h : x = .error f) :
    Blames image m op f := .values (hx f h)

theorem of_eval {o : Operand} (ho : o ∈ op.lookups) (h : m.eval o = .error f) :
    Blames image m op f := by
  cases o with
  | place p =>
    simp only [Machine.eval, Machine.read] at h
    split at h
    · cases h
    · rename_i hp
      cases h
      exact .place ho hp
  | const c => cases h
  | returned =>
    simp only [Machine.eval] at h
    split at h <;> cases h
    exact .values rfl

/-- What comes after an operand was looked up. -/
theorem of_bind {o : Operand} {g : Value → Except Fault β} (ho : o ∈ op.lookups)
    (hg : ∀ v, g v = .error f → Blames image m op f) (h : (m.eval o >>= g) = .error f) :
    Blames image m op f := by
  rcases bind_eq_error.1 h with h | ⟨v, -, h⟩
  · exact of_eval ho h
  · exact hg v h

theorem of_evalInt {o : Operand} {g : Int64 → Except Fault β} (ho : o ∈ op.lookups)
    (hg : ∀ i, g i = .error f → Blames image m op f) (h : (m.evalInt o >>= g) = .error f) :
    Blames image m op f := by
  rcases bind_eq_error.1 h with h | ⟨i, -, h⟩
  · exact of_bind ho (fun v h => of_ofValues (.asInt v) h) h
  · exact hg i h

theorem of_evalIndex {o : Option Operand} {g : Option Int64 → Except Fault β}
    (ho : ∀ o' ∈ o, o' ∈ op.lookups) (hg : ∀ i, g i = .error f → Blames image m op f)
    (h : (m.evalIndex o >>= g) = .error f) : Blames image m op f := by
  cases o with
  | none => exact hg none h
  | some o =>
    refine of_evalInt (g := fun i => g (some i)) (ho o rfl) (fun i => hg (some i)) ?_
    rw [← h, evalIndex]
    cases m.evalInt o <;> rfl

end Blames

variable {image : Image} {m : Machine} {op : Op} {f : Fault}

/-- Where the fault of an operation that gives a place a value comes from. -/
theorem blames_of_effect {d : Place} (h : m.effect op = some (d, .error f)) :
    Blames image m op f := by
  cases op <;> simp only [effect, Option.some.injEq, Prod.mk.injEq, reduceCtorEq, and_false] at h
  case copy d src => exact .of_eval (by simp [Op.lookups, Op.operands]) h.2
  case binary d op l r =>
    refine .of_bind (o := l) (by simp [Op.lookups, Op.operands]) (fun a h => ?_) h.2
    refine .of_bind (o := r) (by simp [Op.lookups, Op.operands]) (fun b h => ?_) h
    exact .of_ofValues (.apply op a b) h
  case unary d g o =>
    refine .of_bind (o := o) (by simp [Op.lookups, Op.operands]) (fun a h => ?_) h.2
    exact .of_ofValues (.applyUnary g a) h
  case load d base row col =>
    refine .of_evalInt (o := row) (by simp [Op.lookups, Op.operands]) (fun i h => ?_) h.2
    refine .of_evalIndex (o := col) (by simp +contextual [Op.lookups, Op.operands])
      (fun j h => ?_) h
    refine .of_bind (o := base) (by simp [Op.lookups, Op.operands]) (fun b h => ?_) h
    exact .of_ofValues (.loadIndex b i j) h
  case store base row col o =>
    refine .of_evalInt (o := row) (by simp [Op.lookups]) (fun i h => ?_) h.2
    refine .of_evalIndex (o := col) (by simp +contextual [Op.lookups]) (fun j h => ?_) h
    refine .of_bind (o := o) (by simp [Op.lookups]) (fun v h => ?_) h
    refine .of_bind (o := .place base) (by simp [Op.lookups]) (fun b h => ?_) h
    exact .of_ofValues (.storeIndex b i j v) h

theorem blames_of_call {callee : Callee} {argc : Nat}
    (h : call image m callee argc = .error f) : Blames image m (.call callee argc) f := by
  unfold call at h
  split at h
  · cases h
    exact .values rfl
  · rename_i hlen
    cases callee with
    | builtin b =>
      rcases bind_eq_error.1 h with h | ⟨_, -, h⟩
      · by_cases hover : b.Overflows (m.args.take argc).reverse
        · rw [Builtin.call_of_overflows hover] at h
          cases h
          exact .overflow ⟨b, argc, rfl, Nat.le_of_not_lt hlen, hover⟩
        · exact .of_ofValues (.call hover _) h
      · cases h
    | user name =>
      dsimp only [callUser] at h
      cases hf : image.functions.get? name with
      | none =>
        rw [hf] at h
        cases h
        exact .function hf
      | some info =>
        rw [hf] at h
        dsimp only at h
        split at h
        · cases h
          exact .values rfl
        · split at h
          · rename_i hdepth
            cases h
            exact .depth hdepth
          · rcases bind_eq_error.1 h with h | ⟨_, -, h⟩
            · exact .entry hf h
            · cases h

/-- Where the fault of an operation comes from. -/
theorem blames_of_execute (h : execute image m op = .error f) : Blames image m op f := by
  cases he : m.effect op with
  | some p =>
    obtain ⟨d, x⟩ := p
    rw [execute_of_effect he] at h
    rcases bind_eq_error.1 h with rfl | ⟨v, -, h⟩
    · exact blames_of_effect he
    · cases h
  | none =>
    have hleave : ∀ {o v}, leave m v = .error f → Blames image m (.return o) f := by
      intro o v h
      unfold leave at h
      split at h
      · cases h
      · split at h <;> cases h
        exact .result
    cases op with
    | label l | halt | input d t => cases h
    | jump l =>
      rcases bind_eq_error.1 h with h | ⟨k, -, h⟩
      · exact .target rfl h
      · cases h
    | jumpIfFalse c l =>
      refine .of_bind (o := c) (by simp [Op.lookups, Op.operands]) (fun v h => ?_) h
      rcases bind_eq_error.1 h with h | ⟨b, -, h⟩
      · exact .of_ofValues (.asBool v) h
      · cases b with
        | true => cases h
        | false =>
          rcases bind_eq_error.1 h with h | ⟨k, -, h⟩
          · exact .target rfl h
          · cases h
    | param o =>
      exact .of_bind (o := o) (by simp [Op.lookups, Op.operands]) (fun v h => by cases h) h
    | print o newline =>
      exact .of_bind (o := o) (by simp [Op.lookups, Op.operands]) (fun v h => by cases h) h
    | call callee argc => exact blames_of_call h
    | «return» o =>
      cases o with
      | none => exact hleave h
      | some o =>
        exact .of_bind (o := o) (by simp [Op.lookups, Op.operands]) (fun v h => hleave h) h
    | _ => cases he

/-- Only such a call comes upon a number that does not fit. -/
theorem execute_eq_overflow : execute image m op = .error .overflow ↔ m.Overflows op := by
  constructor
  · intro h
    have hb := blames_of_execute h
    generalize hf : Fault.overflow = f at hb
    cases hb with
    | overflow ho => exact ho
    | values hv => subst hf; cases hv
    | target _ hl | entry _ hl =>
      subst hf
      unfold Image.position at hl
      split at hl <;> cases hl
    | place | function | depth | result => cases hf
  · rintro ⟨f, argc, rfl, hlen, ho⟩
    simp only [execute, call, if_neg (Nat.not_lt_of_le hlen), callBuiltin,
      Builtin.call_of_overflows ho]
    rfl

/-- An operation that gives a place a value never does. -/
theorem effect_ne_overflow {d : Place} (h : m.effect op = some (d, .error f)) : f ≠ .overflow := by
  rintro rfl
  obtain ⟨g, argc, rfl, -⟩ := execute_eq_overflow.1
    (@execute_of_effect ⟨#[], [], [], {}⟩ _ _ _ _ h)
  cases h

/-- Where the fault of a step comes from: of its instruction, or of the limit on instructions. -/
theorem blames_of_step {m' : Machine} (h : m.step image = .faulted m' f) :
    (∃ limit, f = .stepLimitExceeded limit) ∨
      ∃ i, image.instrs[m.pc]? = some i ∧ Blames image (m.noted i.line) i.op f := by
  unfold step at h
  split at h
  · cases h
  rename_i i hi
  split at h
  · cases h
  unfold perform at h
  dsimp only at h
  split at h
  · cases h
    exact .inl ⟨_, rfl⟩
  · split at h <;> cases h
    rename_i he
    exact .inr ⟨i, hi, blames_of_execute he⟩

end Machine

end NumericScript
