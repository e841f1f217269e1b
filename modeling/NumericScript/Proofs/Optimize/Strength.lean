import NumericScript.Proofs.Builtin
import NumericScript.Proofs.Optimize.Constants

/-! # Cheaper operations give the same

Wherever the cheaper forms of an operation give the same on the values that a run meets, the
run cannot tell them apart.  That squares are replaced only of numbers is kept track of, and
what is kept track of holds along every run.

* `preserves_strength`: the pass preserves code. -/

namespace NumericScript

open Machine (bind_eq_ok)

variable {functions : List FunctionInfo} {settings : MachineSettings} {held moving : Nat → Prop}
  {code : List Instr}

/-! ### Numbers -/

/-- What is known before the instruction at a position. -/
def scalarsAt (s : Scalars) (code : List Instr) (k : Nat) : Scalars :=
  (code.take k).foldl (fun s i => s.after i.op) s

theorem scalarsAt_succ {s : Scalars} {k : Nat} {i : Instr} (hi : code[k]? = some i) :
    scalarsAt s code (k + 1) = (scalarsAt s code k).after i.op := by
  rw [scalarsAt, List.take_add_one, hi, List.foldl_append]
  rfl

theorem getElem?_strengthFrom (s : Scalars) (code : List Instr) (k : Nat) :
    (strengthFrom s code).code[k]? =
      (code[k]?).map fun i =>
        { i with op := (i.op.cheaper? (scalarsAt s code k)).getD i.op } := by
  induction code generalizing s k with
  | nil => rfl
  | cons i is ih =>
    rw [strengthFrom]
    cases k with
    | zero =>
      have h0 : scalarsAt s (i :: is) 0 = s := rfl
      rw [h0]
      cases h : i.op.cheaper? s with
      | none => simp [h]
      | some op => simp [h]
    | succ k =>
      have hs : scalarsAt s (i :: is) (k + 1) = scalarsAt (s.after i.op) is k := rfl
      rw [hs]
      cases h : i.op.cheaper? s with
      | none => exact ih (s.after i.op) k
      | some op => exact ih (s.after i.op) k

theorem Scalars.holds_place {s : Scalars} {p : Place} :
    s.holds (.place p) = true ↔ p ∈ s.places := decide_eq_true_iff

/-- A value is a number. -/
def IsNumber (v : Value) : Prop := v.isNumber = true

/-- What is known of operands: some of them are numbers. -/
def scalarClaims (code : List Instr) (k : Nat) : Claims := fun o =>
  if (code[k]?.bind fun i => i.op.label?).isSome then none
  else
    match o with
    | .place p => if p ∈ (scalarsAt .none code k).places then some IsNumber else none
    | .returned => if (scalarsAt .none code k).returned then some IsNumber else none
    | .const _ => none

theorem scalarClaims_of_holds {k : Nat} {i : Instr} {o : Operand} (hi : code[k]? = some i)
    (hl : i.op.label? = none) (ho : (scalarsAt .none code k).holds o = true)
    (hc : ∀ c, o ≠ .const c) : scalarClaims code k o = some IsNumber := by
  have hlab : ¬ (code[k]?.bind fun i => i.op.label?).isSome := by
    rw [hi, Option.bind_some, hl]
    exact nofun
  unfold scalarClaims
  rw [if_neg hlab]
  cases o with
  | place p => exact if_pos (Scalars.holds_place.1 ho)
  | returned => exact if_pos ho
  | const c => exact absurd rfl (hc c)

theorem holds_of_scalarClaims {k : Nat} {o : Operand} {P : Value → Prop}
    (h : scalarClaims code k o = some P) :
    P = IsNumber ∧ (scalarsAt .none code k).holds o = true ∧ ∀ c, o ≠ .const c := by
  unfold scalarClaims at h
  split at h
  · cases h
  · cases o with
    | place p =>
      dsimp only at h
      split at h
      · cases h
        exact ⟨rfl, Scalars.holds_place.2 ‹p ∈ _›, nofun⟩
      · cases h
    | returned =>
      dsimp only at h
      split at h
      · cases h
        exact ⟨rfl, ‹_›, nofun⟩
      · cases h
    | const c => cases h

/-- An operand that surely is a number is one. -/
theorem isNumber_of_holds {k : Nat} {i : Instr} {m : Machine} {o : Operand} {v : Value}
    (hi : code[k]? = some i) (hl : i.op.label? = none) (hm : (scalarClaims code k).Hold m)
    (ho : (scalarsAt .none code k).holds o = true) (hv : m.eval o = .ok v) :
    v.isNumber = true := by
  cases o with
  | const c =>
    cases hv
    cases c <;> first | rfl | cases ho
  | _ =>
    obtain ⟨w, hw, hP⟩ := hm _ _ (scalarClaims_of_holds hi hl ho (fun c hc => by cases hc))
    rw [hv] at hw
    cases hw
    exact hP

/-- Arithmetic on numbers gives numbers. -/
theorem isNumber_of_apply {op : BinaryOp} {v w r : Value} (hop : op.isArithmetic = true)
    (hv : v.isNumber = true) (hw : w.isNumber = true) (h : op.apply v w = .ok r) :
    r.isNumber = true := by
  have hints : ∀ a b : Int64, Arithmetic.ints op a b = .ok r → r.isNumber = true := by
    intro a b h
    cases op <;> cases hop <;> simp only [Arithmetic.ints] at h
    all_goals
      try split at h
      all_goals first | (cases h; rfl) | cases h
  have hdoubles : ∀ a b : Double, Arithmetic.doubles op a b = .ok r → r.isNumber = true := by
    intro a b h
    cases op <;> cases hop <;> simp only [Arithmetic.doubles] at h
    all_goals
      try split at h
      all_goals first | (cases h; rfl) | cases h
  cases v <;> cases hv <;> cases w <;> cases hw
  · exact hints _ _ h
  · exact hdoubles _ _ h
  · exact hdoubles _ _ h
  · exact hdoubles _ _ h

/-- An operation that surely writes a number writes one. -/
theorem isNumber_of_writes {k : Nat} {i : Instr} {m : Machine} {d : Place} {v : Value}
    (hi : code[k]? = some i) (hl : i.op.label? = none) (hm : (scalarClaims code k).Hold m)
    (hw : (scalarsAt .none code k).writes i.op = true)
    (he : m.effect i.op = some (d, .ok v)) : v.isNumber = true := by
  have hold := fun {o v} => @isNumber_of_holds code k i m o v hi hl hm
  cases hop : i.op with
  | assign d' c =>
    rw [hop] at hw he
    cases he
    cases c <;> first | rfl | cases hw
  | copy d' s =>
    rw [hop] at hw he
    simp only [Machine.effect, Option.some.injEq, Prod.mk.injEq] at he
    exact hold hw he.2
  | unary d' f o =>
    rw [hop] at hw he
    simp only [Machine.effect, Option.some.injEq, Prod.mk.injEq] at he
    obtain ⟨a, ha, hv⟩ := bind_eq_ok.1 he.2
    cases f with
    | toFloat => cases a <;> cases hv <;> rfl
    | neg =>
      have hn := hold hw ha
      cases a <;> cases hn <;> cases hv <;> rfl
    | _ => cases hw
  | binary d' f l r =>
    rw [hop] at hw he
    simp only [Machine.effect, Option.some.injEq, Prod.mk.injEq] at he
    obtain ⟨a, ha, hv⟩ := bind_eq_ok.1 he.2
    obtain ⟨b, hb, hv⟩ := bind_eq_ok.1 hv
    have hw' : (f.isArithmetic && (scalarsAt .none code k).holds l &&
        (scalarsAt .none code k).holds r) = true := hw
    rw [Bool.and_eq_true, Bool.and_eq_true] at hw'
    exact isNumber_of_apply hw'.1.1 (hold hw'.1.2 ha) (hold hw'.2 hb) hv
  | load d' base row col =>
    rw [hop] at hw he
    cases col with
    | none => cases hw
    | some col =>
      simp only [Machine.effect, Option.some.injEq, Prod.mk.injEq] at he
      obtain ⟨a, -, hv⟩ := bind_eq_ok.1 he.2
      obtain ⟨j, hj, hv⟩ := bind_eq_ok.1 hv
      obtain ⟨c, -, hv⟩ := bind_eq_ok.1 hv
      cases hcol : m.evalInt col with
      | error f => rw [Machine.evalIndex, hcol] at hj; cases hj
      | ok c =>
        rw [Machine.evalIndex, hcol] at hj
        cases hj
        unfold Value.loadIndex at hv
        split at hv
        · contradiction
        · rename_i n c' hc
          cases hx : Matrix.get n a c' with
          | error f => rw [hx] at hv; cases hv
          | ok x => rw [hx] at hv; cases hv; rfl
        · cases hv
        · cases hv
  | _ => rw [hop] at he hw; first | cases hw | cases he

/-- What is known after a place is written was known before, or it is the place. -/
theorem Scalars.holds_written {s : Scalars} {d : Place} {o : Operand} {b : Bool}
    (h : (if b then s.learn d else s.forget d).holds o = true) (hc : ∀ c, o ≠ .const c) :
    s.holds o = true ∧ o ≠ .place d ∨ o = .place d ∧ b = true := by
  cases o with
  | const c => exact absurd rfl (hc c)
  | returned => cases b <;> exact .inl ⟨h, nofun⟩
  | place p =>
    cases b with
    | true =>
      by_cases hp : p = d
      · exact .inr ⟨by rw [hp], rfl⟩
      · refine .inl ⟨Scalars.holds_place.2 ?_, fun h => hp (Operand.place.inj h)⟩
        exact (List.mem_cons.1 (Scalars.holds_place.1 h)).resolve_left hp
    | false =>
      obtain ⟨hp, hne⟩ := List.mem_filter.1 (Scalars.holds_place.1 h)
      exact .inl ⟨Scalars.holds_place.2 hp, by simpa using hne⟩

/-- What is known after an operation was known before, or the operation writes it. -/
theorem Scalars.holds_after {s : Scalars} {op : Op} {o : Operand}
    (h : (s.after op).holds o = true) (hc : ∀ c, o ≠ .const c) (hl : op.label? = Option.none)
    (hb : op.endsBlock = false) :
    s.holds o = true ∧ op.Leaves o ∨
      (∃ d, op.dest? = some d ∧ o = .place d ∧ s.writes op = true) ∨
      ∃ f argc, op = .call (.builtin f) argc ∧ o = .returned ∧ f.returns.isNumeric = true := by
  cases op with
  | label l => cases hl
  | call f argc =>
    cases o with
    | place p =>
      obtain ⟨hp, ht⟩ := List.mem_filter.1 (Scalars.holds_place.1 h)
      refine .inl ⟨Scalars.holds_place.2 hp, ?_⟩
      cases p with
      | temp t => exact ⟨t, rfl⟩
      | var x => cases ht
    | returned =>
      cases f with
      | builtin f => exact .inr (.inr ⟨f, argc, rfl, rfl, h⟩)
      | user name => cases h
    | const c => exact absurd rfl (hc c)
  | store base row col v =>
    rcases Scalars.holds_written (b := false) h hc with h | ⟨-, hb⟩
    · exact .inl h
    · cases hb
  | newArray d n | newMatrix d n m =>
    rcases Scalars.holds_written (b := false) h hc with ⟨h, hne⟩ | ⟨-, hb⟩
    · exact .inl ⟨h, fun d hd => by cases hd; exact hne⟩
    · cases hb
  | jump l => cases hb
  | «return» v => cases hb
  | halt => cases hb
  | jumpIfFalse c l => exact .inl ⟨h, fun d hd => by cases hd⟩
  | param v => exact .inl ⟨h, fun d hd => by cases hd⟩
  | print v n => exact .inl ⟨h, fun d hd => by cases hd⟩
  | _ =>
    rcases Scalars.holds_written h hc with ⟨h, hne⟩ | ⟨rfl, hw⟩
    · exact .inl ⟨h, fun d hd => by cases hd; exact hne⟩
    · exact .inr (.inl ⟨_, rfl, rfl, hw⟩)

theorem isNumber_of_ofInput {line : String} {ty : Ty} {v : Value} (ht : ty.isNumeric = true)
    (h : Value.ofInput line ty = .ok v) : v.isNumber = true := by
  unfold Value.ofInput at h
  cases ty <;> cases ht <;> dsimp only at h <;> split at h
  · cases h
    obtain ⟨n, -, rfl⟩ := Option.map_eq_some_iff.1 ‹_ = some v›
    rfl
  · cases h
  · cases h
    obtain ⟨x, -, rfl⟩ := Option.map_eq_some_iff.1 ‹_ = some v›
    rfl
  · cases h

theorem isNumber_of_gives {f : Builtin} {v : Value} (ht : f.returns.isNumeric = true)
    (h : f.Gives v) : v.isNumber = true := by
  unfold Builtin.Gives at h
  cases hr : f.returns <;> rw [hr] at h ht <;> try cases ht
  · obtain ⟨n, rfl⟩ := h
    rfl
  · obtain ⟨x, rfl⟩ := h
    rfl

theorem sound_scalarClaims (code : List Instr) : Sound code (scalarClaims code) where
  label := by
    intro k i hi hl o
    constructor
    · unfold scalarClaims
      rw [hi, Option.bind_some, if_pos hl]
    · cases h : scalarClaims code (k + 1) o with
      | none => rfl
      | some P =>
        obtain ⟨-, ho, hc⟩ := holds_of_scalarClaims h
        rw [scalarsAt_succ hi] at ho
        cases hop : i.op <;> rw [hop] at hl ho <;> try cases hl
        cases o with
        | const c => exact absurd rfl (hc c)
        | place p => exact absurd (Scalars.holds_place.1 ho) (List.not_mem_nil)
        | returned => cases ho
  flow := by
    intro k i o P hi hl hb h
    obtain ⟨rfl, ho, hc⟩ := holds_of_scalarClaims h
    rw [scalarsAt_succ hi] at ho
    rcases Scalars.holds_after ho hc hl hb with ⟨h', hleaves⟩ | ⟨d, hd, rfl, hw⟩ |
      ⟨f, argc, hop, rfl, hf⟩
    · exact .inl ⟨scalarClaims_of_holds hi hl h' hc, hleaves⟩
    · cases hin : i.op with
      | input d' ty =>
        rw [hin] at hd hw
        cases hd
        exact .inr (.input fun line v hv => isNumber_of_ofInput hw hv)
      | _ =>
        rw [← hin]
        refine .inr (.effect (fun m v hm he => isNumber_of_writes hi hl hm hw he) hd
          fun ty h => ?_)
        rw [hin] at h
        cases h
    · rw [hop]
      exact .inr (.builtin fun args mode v mode' hv =>
        isNumber_of_gives hf (Builtin.gives_of_call hv))

/-- At first nothing is known. -/
theorem scalarClaims_zero (code : List Instr) (o : Operand) : scalarClaims code 0 o = none := by
  cases h : scalarClaims code 0 o with
  | none => rfl
  | some P =>
    obtain ⟨-, ho, hc⟩ := holds_of_scalarClaims h
    cases o with
    | const c => exact absurd rfl (hc c)
    | place p => exact absurd (Scalars.holds_place.1 ho) List.not_mem_nil
    | returned => cases ho

/-- What is kept track of holds wherever a run comes. -/
theorem known_of_reaches (hl : Linked functions code) {lines : List String} {q : Point}
    (hq : (Code.link ⟨code, functions⟩ settings).Reaches
      ((Code.link ⟨code, functions⟩ settings).startPoint lines) q) :
    Known (scalarClaims code) q.machine := by
  induction hq with
  | refl => exact known_start (scalarClaims_zero code) _ _
  | tail _ hadv ih => exact (sound_scalarClaims code).known_of_advance hl.distinct ih hadv

/-! ### Cheaper forms -/

/-- The cheaper forms of an operation with a constant. -/
inductive Cheaper (s : Scalars) (d : Place) : BinaryOp → Operand → Operand → Op → Prop where
  | one_right {f : BinaryOp} {o : Operand} (hf : f = .mul ∨ f = .div) :
      Cheaper s d f o (.const (.int 1)) (.copy d o)
  | one_left {o : Operand} : Cheaper s d .mul (.const (.int 1)) o (.copy d o)
  | two_right {o : Operand} : Cheaper s d .mul o (.const (.int 2)) (.binary d .add o o)
  | two_left {o : Operand} : Cheaper s d .mul (.const (.int 2)) o (.binary d .add o o)
  | power {o : Operand} {x k : Double} (hk : reciprocalPower? x = some k) :
      Cheaper s d .div o (.const (.float x)) (.binary d .mul o (.const (.float k)))
  | square {o : Operand} (hs : s.holds o = true) :
      Cheaper s d .pow o (.const (.int 2)) (.binary d .mul o o)

theorem Operand.eq_const_of_isInt {o : Operand} {n : Int64} (h : o.isInt n = true) :
    o = .const (.int n) := by
  unfold isInt at h
  split at h
  · rw [of_decide_eq_true h]
  · cases h

theorem Operand.exists_of_factor? {o : Operand} {k : Double} (h : o.factor? = some k) :
    ∃ x, o = .const (.float x) ∧ reciprocalPower? x = some k := by
  unfold factor? at h
  split at h
  · exact ⟨_, rfl, h⟩
  · cases h

/-- What replaces an operation is one of its cheaper forms. -/
theorem cheaper_of_cheaper? {s : Scalars} {op op' : Op} (h : op.cheaper? s = some op') :
    ∃ d f l r, op = .binary d f l r ∧ Cheaper s d f l r op' := by
  cases op with
  | binary d f l r =>
    refine ⟨d, f, l, r, rfl, ?_⟩
    rw [Op.cheaper?] at h
    split at h
    · cases h
    · cases f <;> simp only [cheaper?] at h
      case mul =>
        split at h
        · cases h
          exact Operand.eq_const_of_isInt ‹_› ▸ .one_right (.inl rfl)
        · split at h
          · cases h
            exact Operand.eq_const_of_isInt ‹_› ▸ .one_left
          · split at h
            · cases h
              exact Operand.eq_const_of_isInt ‹_› ▸ .two_right
            · split at h
              · cases h
                exact Operand.eq_const_of_isInt ‹_› ▸ .two_left
              · cases h
      case div =>
        split at h
        · cases h
          exact Operand.eq_const_of_isInt ‹_› ▸ .one_right (.inr rfl)
        · obtain ⟨k, hk, rfl⟩ := Option.map_eq_some_iff.1 h
          obtain ⟨x, rfl, hx⟩ := Operand.exists_of_factor? hk
          exact .power hx
      case pow =>
        split at h
        · rename_i hsq
          cases h
          rw [Bool.and_eq_true] at hsq
          exact Operand.eq_const_of_isInt hsq.1 ▸ .square hsq.2
        · cases h
      all_goals cases h
  | _ => cases h

/-- The forms that an operation on one operand can take. -/
inductive Reduced (d : Place) (o : Operand) : Op → Prop where
  | copy : Reduced d o (.copy d o)
  | double : Reduced d o (.binary d .add o o)
  | scale (k : Double) : Reduced d o (.binary d .mul o (.const (.float k)))
  | square : Reduced d o (.binary d .mul o o)

/-- What is reduced is a product, a quotient or a power of an operand and a constant. -/
theorem Cheaper.exists_operand {s : Scalars} {d : Place} {f : BinaryOp} {l r : Operand} {op : Op}
    (h : Cheaper s d f l r op) :
    ∃ o c, (l = o ∧ r = .const c ∨ l = .const c ∧ r = o) ∧ f.isReducible = true ∧
      Reduced d o op := by
  cases h with
  | one_right hf => exact ⟨_, _, .inl ⟨rfl, rfl⟩, by rcases hf with rfl | rfl <;> rfl, .copy⟩
  | one_left => exact ⟨_, _, .inr ⟨rfl, rfl⟩, rfl, .copy⟩
  | two_right => exact ⟨_, _, .inl ⟨rfl, rfl⟩, rfl, .double⟩
  | two_left => exact ⟨_, _, .inr ⟨rfl, rfl⟩, rfl, .double⟩
  | power => exact ⟨_, _, .inl ⟨rfl, rfl⟩, rfl, .scale _⟩
  | square => exact ⟨_, _, .inl ⟨rfl, rfl⟩, rfl, .square⟩

theorem keepsJumps_cheaper {s : Scalars} {i : Instr} {op : Op} (h : i.op.cheaper? s = some op) :
    KeepsJumps i (some { i with op := op }) := by
  obtain ⟨d, f, l, r, hi, hc⟩ := cheaper_of_cheaper? h
  obtain ⟨o, c, -, -, hr⟩ := hc.exists_operand
  refine ⟨rfl, ?_, fun l hl => ?_⟩
  · rw [hi]
    cases hr <;> rfl
  · cases hr <;> cases hl

/-- Temporaries stay in use as before. -/
theorem keepsPaid_cheaper {s : Scalars} {i : Instr} {op : Op} (h : i.op.cheaper? s = some op) :
    KeepsPaid i (some { i with op := op }) := by
  obtain ⟨d, f, l, r, hi, hc⟩ := cheaper_of_cheaper? h
  obtain ⟨o, c, hlr, hf, hr⟩ := hc.exists_operand
  have hread : ∀ t ∈ i.op.tempsRead, Op.operandTemp? o = some t := by
    intro t ht
    rw [hi] at ht
    rcases hlr with ⟨rfl, rfl⟩ | ⟨rfl, rfl⟩ <;>
      simpa [Op.tempsRead, Op.operands, Op.operandTemp?] using ht
  have howes : ∀ t, d = .temp t → i.op.owes = some t := by
    rintro t rfl
    rw [hi, Op.owes]
    cases f <;> first | rfl | cases hf
  refine ⟨fun t ht => ?_, fun t ht => ?_, ?_, fun _ => ?_⟩
  · refine howes t ?_
    cases hr <;> cases d <;> cases ht <;> rfl
  · have := hread t ht
    cases hr <;> exact Machine.Alike.mem_tempsRead (List.mem_cons_self ..) this
  · rw [hi]
    cases hr <;> rfl
  · cases hr <;> rfl

/-- Held temporaries stay apart from constants. -/
theorem steady_cheaper {s : Scalars} {op op' : Op} (h : op.cheaper? s = some op')
    (hst : op.Steady held moving) : op'.Steady held moving := by
  obtain ⟨d, f, l, r, rfl, hc⟩ := cheaper_of_cheaper? h
  obtain ⟨o, c, hlr, hf, hr⟩ := hc.exists_operand
  have hpaid := keepsPaid_cheaper (i := ⟨.binary d f l r, 0⟩) h
  have hnot : ∀ t, o = .place (.temp t) → ¬ held t := by
    intro t ho ht
    obtain ⟨hleft, hright⟩ := hst.factor d f l r rfl hf
    rcases hlr with ⟨rfl, rfl⟩ | ⟨rfl, rfl⟩
    · obtain ⟨u, hu, -⟩ := hleft t ho ht
      cases hu
    · obtain ⟨u, hu, -⟩ := hright t ho ht
      cases hu
  have hmoves : ∀ t, d = .temp t → moving t → ∃ u, o = .place (.temp u) ∧ moving u := by
    rintro t rfl ht
    obtain ⟨u, hu, hm⟩ := hst.moves t rfl ht
    rcases hlr with ⟨rfl, rfl⟩ | ⟨rfl, rfl⟩
    · exact ⟨u, hu.resolve_right (fun h => by cases h), hm⟩
    · exact ⟨u, hu.resolve_left (fun h => by cases h), hm⟩
  have hmem : o ∈ (Op.binary d f l r).operands := by
    rcases hlr with ⟨rfl, rfl⟩ | ⟨rfl, rfl⟩ <;> simp [Op.operands]
  refine ⟨fun t ht hread => ?_, fun d t h => ?_, fun d f l r h _ => ?_, fun t ht hm => ?_,
    fun t ty h => by cases hr <;> cases h⟩
  · refine hst.fresh t (hpaid.1 t ht) (Machine.Alike.mem_tempsRead hmem ?_)
    cases hr <;> simpa [Op.tempsRead, Op.operands, Op.operandTemp?] using hread
  · cases hr <;> cases h
    exact hnot t rfl
  · refine ⟨fun t hl ht => ?_, fun t hr' ht => ?_⟩
    · cases hr <;> cases h <;> exact absurd ht (hnot t hl)
    · cases hr <;> cases h <;> first | exact absurd ht (hnot t hr') | cases hr'
  · have hd : d = .temp t := by
      cases hr <;> cases d <;> cases ht <;> rfl
    obtain ⟨u, rfl, hu⟩ := hmoves t hd hm
    cases hr with
    | copy => exact .inr ⟨u, rfl, hu⟩
    | double => exact ⟨u, .inl rfl, hu⟩
    | scale => exact ⟨u, .inl rfl, hu⟩
    | square => exact ⟨u, .inl rfl, hu⟩

/-! ### Outcomes -/

/-- An operand with a value is no variable without one. -/
theorem Machine.hasValue_of_eval {m : Machine} {o : Operand} {v : Value} (h : m.eval o = .ok v) :
    m.HasValue o := by
  rintro x rfl
  rw [Machine.eval, Machine.read] at h
  cases hx : m.read? (.var x) with
  | none => rw [hx] at h; cases h
  | some w => rfl

theorem Machine.guarded_add (m : Machine) (l r : Operand) : m.Guarded .add l r where
  left := fun h => by rcases h with h | h <;> cases h
  right := fun h => by cases h

/-- The cheaper forms of the square of a number give the same. -/
theorem productRobust_square {v : Value} (h : v.isNumber = true) : ProductRobust v v := by
  have hone : v = .int 1 → BinaryOp.mul.apply v v = .ok v := by
    rintro rfl
    rfl
  have htwo : v = .int 2 → BinaryOp.mul.apply v v = BinaryOp.add.apply v v := by
    rintro rfl
    rfl
  exact ⟨hone, hone, htwo, htwo⟩

/-- A cheaper form gives what the operation gives, and the optimizer may rely on it. -/
theorem Cheaper.effect {s : Scalars} {d : Place} {f : BinaryOp} {l r : Operand} {op : Op}
    (h : Cheaper s d f l r op) {m : Machine} (ht : (Op.binary d f l r).Trusty held m)
    (hs : ∀ o v, s.holds o = true → m.eval o = .ok v → v.isNumber = true) :
    m.effect (.binary d f l r) = m.effect op ∧ op.Trusty held m := by
  have hconst : ∀ c : Constant, m.eval (.const c) = .ok c.toValue := fun c => rfl
  obtain ⟨hrobust, hguard⟩ := ht
  cases h with
  | one_right hf =>
    refine ⟨?_, .inl (hguard.left hf rfl)⟩
    simp only [Machine.effect, hconst]
    cases hv : m.eval l with
    | error e => rfl
    | ok v =>
      have hR := hrobust v _ hv rfl
      rcases hf with rfl | rfl
      · exact congrArg (fun x => some (d, x)) (hR.one_right rfl)
      · exact congrArg (fun x => some (d, x)) (hR.one rfl)
  | one_left =>
    refine ⟨?_, .inl (hguard.right rfl rfl)⟩
    simp only [Machine.effect, hconst]
    cases hv : m.eval r with
    | error e => rfl
    | ok v => exact congrArg (fun x => some (d, x)) ((hrobust _ v rfl hv).one_left rfl)
  | two_right =>
    refine ⟨?_, fun _ _ _ _ => trivial, Machine.guarded_add m _ _⟩
    simp only [Machine.effect, hconst]
    cases hv : m.eval l with
    | error e => rfl
    | ok v => exact congrArg (fun x => some (d, x)) ((hrobust v _ hv rfl).two_right rfl)
  | two_left =>
    refine ⟨?_, fun _ _ _ _ => trivial, Machine.guarded_add m _ _⟩
    simp only [Machine.effect, hconst]
    cases hv : m.eval r with
    | error e => rfl
    | ok v => exact congrArg (fun x => some (d, x)) ((hrobust _ v rfl hv).two_left rfl)
  | @power _ x k hk =>
    refine ⟨?_, fun v w hv hw => ?_, ⟨fun _ h => ?_, fun _ _ x hx => ?_⟩⟩
    · simp only [Machine.effect, hconst]
      cases hv : m.eval l with
      | error e => rfl
      | ok v =>
        exact congrArg (fun x => some (d, x)) ((hrobust v _ hv rfl).power x k rfl hk).1
    · cases hw
      exact ((hrobust v _ hv rfl).power x k rfl hk).2
    · cases h
    · cases hx
  | square ho =>
    refine ⟨?_, fun v w hv hw => ?_, ⟨fun _ => Machine.hasValue_of_eval,
      fun _ => Machine.hasValue_of_eval⟩⟩
    · simp only [Machine.effect, hconst]
      cases hv : m.eval l with
      | error e => rfl
      | ok v =>
        exact congrArg (fun x => some (d, x)) (hrobust v _ hv rfl rfl (hs l v ho hv))
    · rw [hv] at hw
      cases hw
      exact productRobust_square (hs l v ho hv)

/-- Replacing operations by cheaper ones preserves code. -/
theorem preserves_strength (hs : settings.maxSteps = none) (code : List Instr) :
    Preserves functions settings held moving code (strength code).code := by
  have hat : ∀ {k : Nat} {i : Instr} {o : Option Instr}, code[k]? = some i →
      ((strength code).code.map some)[k]? = some o →
      o = some { i with op := (i.op.cheaper? (scalarsAt .none code k)).getD i.op } := by
    intro k i o hi ho
    rw [List.getElem?_map, strength, getElem?_strengthFrom, hi] at ho
    exact (Option.some.inj ho).symm
  have hcases : ∀ {k : Nat} {i i' : Instr}, code[k]? = some i →
      ((strength code).code.map some)[k]? = some (some i') →
      i' = i ∨ ∃ op, i.op.cheaper? (scalarsAt .none code k) = some op ∧
        i' = { i with op := op } := by
    intro k i i' hi hi'
    cases hat hi hi'
    cases h : i.op.cheaper? (scalarsAt .none code k) with
    | none => exact .inl rfl
    | some op => exact .inr ⟨op, rfl, rfl⟩
  have hall : ∀ {R : Instr → Option Instr → Prop}, (∀ i, R i (some i)) →
      (∀ i s op, i.op.cheaper? s = some op → R i (some { i with op := op })) →
      List.Forall₂ R code ((strength code).code.map some) := by
    intro R hsame hcheap
    rw [List.forall₂_iff_get]
    refine ⟨by simp [strength, length_strengthFrom], fun k hk hk' => ?_⟩
    have hi := List.getElem?_eq_getElem hk
    have hi' := List.getElem?_eq_getElem hk'
    have he := hat hi hi'
    rw [List.get_eq_getElem, List.get_eq_getElem, he]
    cases h : code[k].op.cheaper? (scalarsAt .none code k) with
    | none => exact hsame _
    | some op => exact hcheap _ _ op h
  rw [← reduceOption_map_some (strength code).code]
  refine Preserves.of_rearranged hs
    (fun hl => .of_keepsJumps hl (hall (fun i => ⟨rfl, rfl, fun _ => id⟩)
      fun i s op => keepsJumps_cheaper))
    (fun ht => tidy_of_keepsPaid ht (hall (fun i => ⟨.refl i, fun i' he => ?_⟩)
      fun i s op h => ⟨keepsPaid_cheaper h, fun i' he => ?_⟩))
    (fun _ => False) (Known (scalarClaims code)) ?_ ?_ (fun _ _ _ _ => id) ?_ ?_
  · cases he
    exact id
  · cases he
    exact steady_cheaper h
  · exact known_start (scalarClaims_zero code)
  · exact fun hl _ p q hp hadv => (sound_scalarClaims code).known_of_advance hl.distinct hp hadv
  · intro _ _ m i i' hk ht hi hi'
    rcases hcases hi hi' with rfl | ⟨op, h, rfl⟩
    · exact ⟨fun _ => rfl, ht⟩
    · obtain ⟨d, f, l, r, hop, hc⟩ := cheaper_of_cheaper? h
      have hl : i.op.label? = none := by rw [hop]; rfl
      rw [hop] at ht ⊢
      obtain ⟨heff, ht'⟩ := hc.effect ht fun o v ho hv => isNumber_of_holds hi hl hk.1 ho hv
      refine ⟨fun _ => ?_, ht'⟩
      rw [← Machine.effect_noted m i.line, ← Machine.effect_noted m i.line] at heff
      exact Machine.execute_congr rfl heff.symm
  · intro _ _ p i _ _ hi hi'
    cases hat hi hi'

end NumericScript
