import Mathlib.Data.List.GetD
import NumericScript.Proofs.Checked.Shapes

/-! # Operators and builtins, step by step

Operators, elements of containers, texts and builtins with every step checked.  On values in which
matrices hold as many entries as their shapes say, they are defined and give such values again, but
for the least common multiple of numbers whose quotient does not fit.

* `Value.Sound`: all matrices in a value are well-formed.
* `BinaryOp.value?_agrees`, `UnaryFn.value?_agrees`: operators are defined on all such values.
* `Builtin.call?_agrees`, `Builtin.call?_of_overflows`: builtins are, but for that one. -/

namespace NumericScript

/-! ### Values -/

namespace Value

mutual

/-- All matrices in a value hold as many entries as their shapes say. -/
def Sound : Value → Prop
  | array items => AllSound items
  | matrix m => m.WellFormed
  | _ => True

/-- All matrices in several values hold as many entries as their shapes say. -/
def AllSound : List Value → Prop
  | [] => True
  | v :: vs => v.Sound ∧ AllSound vs

end

theorem allSound_iff {vs : List Value} : AllSound vs ↔ ∀ v ∈ vs, v.Sound := by
  induction vs with
  | nil => simp [AllSound]
  | cons v vs ih => rw [AllSound, ih, List.forall_mem_cons]

mutual

/-- A value as the language shows it. -/
def text? : Value → Option String
  | array items => do
    let words ← texts? items
    return "[" ++ ", ".intercalate words ++ "]"
  | matrix m => m.text?
  | v => some v.text

/-- The texts of several values. -/
def texts? : List Value → Option (List String)
  | [] => some []
  | v :: vs => do
    let word ← v.text?
    let words ← texts? vs
    return word :: words

end

mutual

/-- Sound values have a text. -/
theorem text?_eq : ∀ (v : Value), v.Sound → v.text? = some v.text
  | array items, h => by
    rw [text?, texts?_eq items h]
    rfl
  | matrix _, h => Matrix.WellFormed.text?_eq h
  | int _, _ | float _, _ | str _, _ | bool _, _ | void, _ => rfl
termination_by structural v => v

theorem texts?_eq : ∀ (vs : List Value), AllSound vs → texts? vs = some (texts vs)
  | [], _ => rfl
  | v :: vs, h => by
    rw [texts?, text?_eq v h.1, texts?_eq vs h.2]
    rfl
termination_by structural vs => vs

end

/-- The element of an array at `row`, or the entry of a matrix at `row` and a column. -/
def loadIndex? (base : Value) (row : Int64) (col : Option Int64) : Checked Value :=
  match base, col with
  | array items, none => do
    let i ← checkedIndex row items.length
    (items[i]? : Option Value)
  | matrix m, some c => do
    let x ← m.get? row c
    return float x
  | base, col => base.loadIndex row col

/-- The container with `value` in the place of an element, which has to be there. -/
def storeIndex? (base : Value) (row : Int64) (col : Option Int64) (value : Value) :
    Checked Value :=
  match base, col with
  | array items, none => do
    let i ← checkedIndex row items.length
    let _ ← (items[i]? : Option Value)
    return array (items.set i value)
  | matrix m, some c => do
    let x ← value.asDouble
    let m ← m.set? row c x
    return matrix m
  | base, col => base.storeIndex row col value

theorem loadIndex?_agrees {base : Value} (h : base.Sound) (row : Int64) (col : Option Int64) :
    Agrees (base.loadIndex? row col) (base.loadIndex row col) := by
  cases base <;> cases col
  case array.none items =>
    refine (Agrees.lift _).bind fun i hi => .ofSome ?_
    have hlt := checkedIndex_lt hi
    rw [List.getElem?_eq_getElem hlt, List.getD_eq_getElem _ _ hlt]
  case matrix.some m c => exact (Matrix.WellFormed.get?_agrees h row c).map
  all_goals exact .lift _

theorem storeIndex?_agrees {base : Value} (h : base.Sound) (row : Int64) (col : Option Int64)
    (v : Value) : Agrees (base.storeIndex? row col v) (base.storeIndex row col v) := by
  cases base <;> cases col
  case array.none items =>
    refine (Agrees.lift _).bind fun i hi =>
      .step (a := items.get ⟨i, checkedIndex_lt hi⟩) ?_ (.ok _)
    exact List.getElem?_eq_getElem _
  case matrix.some m c =>
    exact (Agrees.lift _).bind fun x _ => (Matrix.WellFormed.set?_agrees h row c x).map
  all_goals exact .lift _

end Value

/-! ### Operators -/

namespace Arithmetic

/-- Operators between whole numbers. -/
def ints? (op : BinaryOp) (a b : Int64) : Checked Value :=
  match op with
  | .div => do
    if b = 0 then throw .divisionByZero
    let quotient ← wrappingQuotient? a b
    return .int quotient
  | .mod => do
    if b = 0 then throw .moduloByZero
    let remainder ← wrappingRemainder? a b
    return .int remainder
  | op => ints op a b

/-- Operators between matrices. -/
def matrices? (op : BinaryOp) (a b : Matrix) : Checked Value :=
  match op with
  | .mul => do
    let product ← a.multiply? b
    return .matrix product
  | op => matrices op a b

/-- Operators between a matrix and a number. -/
def scaled? (op : BinaryOp) (m : Matrix) (k : Value) : Checked Value :=
  match op with
  | .pow => do
    let k ← k.asInt
    let power ← m.power? k
    return .matrix power
  | op => scaled op m k

theorem ints?_agrees (op : BinaryOp) (a b : Int64) : Agrees (ints? op a b) (ints op a b) := by
  cases op
  case div | mod =>
    refine .ite (fun _ => .error _) fun hb => .step (if_neg hb) (.ok _)
  all_goals exact .lift _

theorem matrices?_agrees {a b : Matrix} (op : BinaryOp) (ha : a.WellFormed) (hb : b.WellFormed) :
    Agrees (matrices? op a b) (matrices op a b) := by
  cases op
  case mul => exact (ha.multiply?_agrees hb).map
  all_goals exact .lift _

theorem scaled?_agrees {m : Matrix} (op : BinaryOp) (hm : m.WellFormed) (k : Value) :
    Agrees (scaled? op m k) (scaled op m k) := by
  cases op
  case pow => exact (Agrees.lift _).bind fun k _ => (hm.power?_agrees k).map
  all_goals exact .lift _

end Arithmetic

open Arithmetic

/-- What an operator gives on two values. -/
def BinaryOp.value? (op : BinaryOp) (left right : Value) : Checked Value :=
  match left, right with
  | .int a, .int b => ints? op a b
  | .matrix a, .matrix b => matrices? op a b
  | .matrix m, .int b => scaled? op m (.int b)
  | .matrix m, .float b => scaled? op m (.float b)
  | left, right => op.apply left right

/-- What an operation gives on one value. -/
def UnaryFn.value? (f : UnaryFn) (operand : Value) : Checked Value :=
  match f, operand with
  | .transpose, .matrix m => do
    let transposed ← m.transpose?
    return .matrix transposed
  | f, v => f.apply v

/-- Operators are defined on sound values. -/
theorem BinaryOp.value?_agrees {a b : Value} (op : BinaryOp) (ha : a.Sound) (hb : b.Sound) :
    Agrees (op.value? a b) (op.apply a b) := by
  cases a <;> cases b
  case int.int a b => exact ints?_agrees op a b
  case matrix.matrix a b => exact matrices?_agrees op ha hb
  case matrix.int m b => exact scaled?_agrees op ha _
  case matrix.float m b => exact scaled?_agrees op ha _
  all_goals exact .lift _

theorem UnaryFn.value?_agrees {v : Value} (f : UnaryFn) (h : v.Sound) :
    Agrees (f.value? v) (f.apply v) := by
  cases f
  case transpose =>
    cases v
    case matrix m => exact .step (Matrix.WellFormed.transpose?_eq h) (.ok _)
    all_goals exact .lift _
  all_goals exact .lift _

/-! ### Builtins -/

namespace Builtin

/-- The value in the middle of the sorted doubles, or the mean of the two in the middle. -/
def medianOf? (xs : List Double) : Option Double := do
  let sorted := xs.mergeSort fun a b => a.orderKey ≤ b.orderKey
  let middle := sorted.length / 2
  if sorted.length % 2 = 0 then
    if middle = 0 then failure
    let below ← sorted[middle - 1]?
    let above ← sorted[middle]?
    return (below + above) / 2.0
  else sorted[middle]?

/-- Calls of one argument. -/
def callOne? (mode : AngleMode) (f : Builtin) (v : Value) : Checked Value :=
  match f with
  | factorial => do
    let n ← v.asInt
    if 0 ≤ n.toInt ∧ n.toInt ≤ 20 then
      let product ← factorial? n.toInt.toNat
      return .int product
    throw (.domainError factorial (.ofInt64 n))
  | median => do
    let xs ← v.asNumbers
    let xs ← nonempty median xs
    let x ← medianOf? xs
    return .float x
  | det => do
    let m ← v.asMatrix
    let x ← m.determinant?
    return .float x
  | trace => do
    let m ← v.asMatrix
    let x ← m.trace?
    return .float x
  | inverse => do
    let m ← v.asMatrix
    let m ← m.inverse?
    return .matrix m
  | transpose => do
    let m ← v.asMatrix
    let m ← m.transpose?
    return .matrix m
  | f => callOne mode f v

/-- Calls of two arguments. -/
def callTwo? (f : Builtin) (v w : Value) : Checked Value :=
  match f with
  | gcd => do
    let a ← v.asInt
    let b ← w.asInt
    let divisor ← gcd? a b
    return .int divisor
  | lcm => do
    let a ← v.asInt
    let b ← w.asInt
    let multiple ← lcm? a b
    return .int multiple
  | f => callTwo f v w

/-- Calls a builtin, which looks its arguments up by their places. -/
def call? (f : Builtin) (args : List Value) (mode : AngleMode) : Checked (Value × AngleMode) :=
  if f.acceptsArity args.length then
    match f with
    | pi | e | degrees | radians => callNone mode f
    | gcd | lcm => do
      let v ← (args[0]? : Option Value)
      let w ← (args[1]? : Option Value)
      let result ← callTwo? f v w
      return (result, mode)
    | log => do
      let v ← (args[0]? : Option Value)
      match args[1]? with
      | some w => return (← callTwo? log v w, mode)
      | none => return (← callOne? mode log v, mode)
    | f => do
      let v ← (args[0]? : Option Value)
      let result ← callOne? mode f v
      return (result, mode)
  else throw (.arityMismatch f.name f.params.length args.length)

theorem medianOf?_eq {xs : List Double} (h : xs ≠ []) : medianOf? xs = some (medianOf xs) := by
  have hlen : 0 < (xs.mergeSort fun a b => decide (a.orderKey ≤ b.orderKey)).length := by
    rw [List.length_mergeSort]
    exact List.length_pos_iff.2 h
  unfold medianOf? medianOf
  dsimp only
  generalize (xs.mergeSort fun a b => decide (a.orderKey ≤ b.orderKey)) = sorted at hlen ⊢
  split
  · have hmiddle : sorted.length / 2 ≠ 0 := by omega
    have hlt : sorted.length / 2 < sorted.length := by omega
    have hlt' : sorted.length / 2 - 1 < sorted.length := by omega
    rw [if_neg hmiddle, List.getElem?_eq_getElem hlt, List.getElem?_eq_getElem hlt',
      List.getD_eq_getElem _ _ hlt, List.getD_eq_getElem _ _ hlt']
    rfl
  · have hlt : sorted.length / 2 < sorted.length := by omega
    rw [List.getElem?_eq_getElem hlt, List.getD_eq_getElem _ _ hlt]

theorem asMatrix_wellFormed {v : Value} {m : Matrix} (h : v.Sound) (hm : v.asMatrix = .ok m) :
    m.WellFormed := by
  cases v <;> cases hm
  exact h

theorem callOne?_agrees (mode : AngleMode) (f : Builtin) {v : Value} (h : v.Sound) :
    Agrees (callOne? mode f v) (callOne mode f v) := by
  cases f
  case factorial =>
    refine (Agrees.lift _).bind fun n _ => .ite (fun hn => ?_) fun _ => .error _
    exact .step (factorial?_eq (by omega)) (.ok _)
  case median =>
    refine (Agrees.lift _).bind fun xs _ => (Agrees.lift _).bind fun ys hys => ?_
    refine .step (medianOf?_eq ?_) (.ok _)
    unfold nonempty at hys
    split at hys
    · cases hys
    · cases hys
      simpa using ‹¬ xs.isEmpty = true›
  case det =>
    exact (Agrees.lift _).bind fun m hm =>
      (asMatrix_wellFormed h hm).determinant?_agrees.bind fun _ _ => .ok _
  case trace =>
    exact (Agrees.lift _).bind fun m hm =>
      (asMatrix_wellFormed h hm).trace?_agrees.bind fun _ _ => .ok _
  case inverse =>
    exact (Agrees.lift _).bind fun m hm =>
      (asMatrix_wellFormed h hm).inverse?_agrees.bind fun _ _ => .ok _
  case transpose =>
    exact (Agrees.lift _).bind fun m hm =>
      .step (asMatrix_wellFormed h hm).transpose?_eq (.ok _)
  all_goals exact .lift _

theorem callTwo?_agrees {f : Builtin} {v w : Value} (h : ¬ f.Overflows [v, w]) :
    Agrees (callTwo? f v w) (callTwo f v w) := by
  cases f
  case gcd =>
    exact (Agrees.lift _).bind fun a _ => (Agrees.lift _).bind fun b _ =>
      .step (gcd?_eq a b) (.ok _)
  case lcm =>
    refine (Agrees.lift _).bind fun a ha => (Agrees.lift _).bind fun b hb => ?_
    refine Agrees.bind (lcm?_eq ?_) fun _ _ => .ok _
    rintro ⟨rfl, hgcd⟩
    cases v <;> cases ha
    cases w <;> cases hb
    exact h ⟨rfl, _, rfl, hgcd⟩
  all_goals exact .lift _

/-- Builtins are defined on sound values unless a number does not fit. -/
theorem call?_agrees {f : Builtin} {args : List Value} (h : ¬ f.Overflows args)
    (hargs : ∀ v ∈ args, v.Sound) (mode : AngleMode) :
    Agrees (f.call? args mode) (f.call args mode) := by
  refine .ite (fun harity => ?_) fun _ => .error _
  rcases args with _ | ⟨v, _ | ⟨w, _ | ⟨u, args⟩⟩⟩
  · cases f
    case pi | e | degrees | radians => exact .lift _
    all_goals cases harity
  · have hv := hargs v List.mem_cons_self
    cases f
    case pi | e | degrees | radians | gcd | lcm => cases harity
    all_goals exact .step rfl ((callOne?_agrees mode _ hv).bind fun _ _ => .ok _)
  · cases f
    case gcd | lcm => exact .step rfl (.step rfl ((callTwo?_agrees h).bind fun _ _ => .ok _))
    case log => exact .step rfl ((callTwo?_agrees h).bind fun _ _ => .ok _)
    all_goals cases harity
  · have : args.length + 1 + 1 + 1 ≤ f.params.length := by
      rw [acceptsArity, Bool.and_eq_true] at harity
      simpa using harity.2
    cases f <;> simp [params] at this

/-- And then the least common multiple is not defined. -/
theorem call?_of_overflows {f : Builtin} {args : List Value} {mode : AngleMode}
    (h : f.Overflows args) : f.call? args mode = none := by
  obtain ⟨rfl, b, rfl, hb⟩ := h
  have htwo : callTwo? lcm (.int Int64.minValue) (.int b) = none := by
    change ((liftM (lcm? Int64.minValue b) : Checked Int64) >>= fun n => pure (Value.int n)) = none
    rw [lcm?_eq_none hb]
    rfl
  change (callTwo? lcm (.int Int64.minValue) (.int b) >>= fun v => pure (v, mode)) = none
  rw [htwo]
  rfl

end Builtin

/-! ### What operations give -/

/-- What a computation gives is sound. -/
def GivesSound (x : Except Fault Value) : Prop := ∀ v, x = .ok v → v.Sound

namespace GivesSound

theorem ok {v : Value} (h : v.Sound) : GivesSound (.ok v) := by
  rintro _ ⟨⟩
  exact h

theorem error (f : Fault) : GivesSound (.error f) := nofun

theorem bind {α : Type} {x : Except Fault α} {g : α → Except Fault Value}
    (h : ∀ a, x = .ok a → GivesSound (g a)) : GivesSound (x >>= g) := by
  intro v hv
  obtain ⟨a, ha, hv⟩ := Machine.bind_eq_ok.1 hv
  exact h a ha v hv

theorem map {α : Type} {x : Except Fault α} {g : α → Value} (h : ∀ a, x = .ok a → (g a).Sound) :
    GivesSound (g <$> x) := by
  cases x with
  | ok a => exact ok (h a rfl)
  | error f => exact error f

theorem ite {c : Prop} [Decidable c] {x y : Except Fault Value} (hx : GivesSound x)
    (hy : GivesSound y) : GivesSound (if c then x else y) := by
  split
  · exact hx
  · exact hy

variable {m n : Matrix}

theorem matrices (op : BinaryOp) (m n : Matrix) : GivesSound (Arithmetic.matrices op m n) := by
  cases op
  case add | sub =>
    refine map fun r hr => ?_
    unfold Matrix.zipWith at hr
    split at hr <;> cases hr
    exact Matrix.ofFn_wellFormed _ _ _
  case mul =>
    refine map fun r hr => ?_
    unfold Matrix.multiply at hr
    split at hr <;> cases hr
    exact Matrix.ofFn_wellFormed _ _ _
  all_goals exact error _

theorem scaled (op : BinaryOp) (hm : m.WellFormed) (k : Value) :
    GivesSound (Arithmetic.scaled op m k) := by
  cases op
  case mul => exact bind fun x _ => ok (Matrix.ofFn_wellFormed _ _ _)
  case div => exact bind fun x _ => ite (error _) (ok (Matrix.ofFn_wellFormed _ _ _))
  case pow => exact bind fun k _ => map fun r hr => (Matrix.fills_power hm hr).wellFormed
  all_goals exact error _

/-- Operators give sound values if they are given such. -/
theorem apply {a b : Value} (op : BinaryOp) (ha : a.Sound) (hb : b.Sound) :
    GivesSound (op.apply a b) := by
  cases a <;> cases b
  case int.int | int.float | float.int | float.float =>
    cases op <;> first | exact ok trivial | exact error _ | exact ite (error _) (ok trivial)
  case str.str | bool.bool => cases op <;> first | exact ok trivial | exact error _
  case matrix.matrix => exact matrices op _ _
  case matrix.int | matrix.float => exact scaled op ha _
  case int.matrix | float.matrix => exact ite (ok (Matrix.ofFn_wellFormed _ _ _)) (error _)
  all_goals exact error _

theorem applyUnary (f : UnaryFn) (v : Value) : GivesSound (f.apply v) := by
  cases f <;> cases v <;>
    first | exact ok trivial | exact error _ | exact ok (Matrix.ofFn_wellFormed _ _ _)

theorem loadIndex {base : Value} (h : base.Sound) (row : Int64) (col : Option Int64) :
    GivesSound (base.loadIndex row col) := by
  cases base <;> cases col
  case array.none items =>
    refine bind fun i hi => ok ?_
    rw [List.getD_eq_getElem _ _ (checkedIndex_lt hi)]
    exact Value.allSound_iff.1 h _ (List.getElem_mem _)
  case matrix.some => exact map fun _ _ => trivial
  all_goals exact error _

theorem storeIndex {base v : Value} (h : base.Sound) (hv : v.Sound) (row : Int64)
    (col : Option Int64) : GivesSound (base.storeIndex row col v) := by
  cases base <;> cases col
  case array.none items =>
    refine bind fun i hi => ok (Value.allSound_iff.2 fun w hw => ?_)
    rcases List.mem_or_eq_of_mem_set hw with hw | rfl
    · exact Value.allSound_iff.1 h w hw
    · exact hv
  case matrix.some m c =>
    exact bind fun x _ => map fun r hr => (Matrix.WellFormed.fills_set h hr).wellFormed
  all_goals exact error _

theorem ofInput (line : String) (t : Ty) : GivesSound (Value.ofInput line t) := by
  intro v h
  unfold Value.ofInput at h
  cases t <;> dsimp only at h
  case str =>
    cases h
    trivial
  case int | float =>
    split at h <;> cases h
    rename_i hv
    obtain ⟨_, -, rfl⟩ := Option.map_eq_some_iff.1 hv
    trivial
  case bool =>
    split at h <;> cases h
    rename_i hv
    split at hv
    · cases hv
      trivial
    · split at hv <;> cases hv
      trivial
  all_goals cases h

/-- What a builtin gives is sound. -/
theorem call {f : Builtin} {args : List Value} {mode mode' : AngleMode} {v : Value}
    (h : f.call args mode = .ok (v, mode')) : v.Sound := by
  have hgives := Builtin.gives_of_call h
  cases f
  case inverse | transpose =>
    rcases args with _ | ⟨w, _ | ⟨u, args⟩⟩
    · cases h
    · obtain ⟨r, hr, h⟩ := Machine.bind_eq_ok.1 h
      cases h
      obtain ⟨m, -, hr⟩ := Machine.bind_eq_ok.1 hr
      first
        | cases hr
          exact Matrix.ofFn_wellFormed _ _ _
        | obtain ⟨r, hinverse, hr⟩ := Machine.bind_eq_ok.1 hr
          cases hr
          exact (Matrix.squared_inverse hinverse).wellFormed
    · cases h
  all_goals
    obtain ⟨_, rfl⟩ := hgives
    trivial

end GivesSound

end NumericScript
