import NumericScript.Proofs.Typing.Machine

/-! # Runs of typed code

Along a run of typed code, what instructions take in and give is of the types that their notes
say, as long as values of which the static type leaves something open are of the types of the
places to which they are moved.  Where all types are known, no run faults because a value is not of
the kind that an operation asks for.

* `Image.ReachesBy`: what a run comes to through points of some kind.
* `Known.of_reachesBy`: what is known along the code holds along a run.
* `Known.keeps`, `Known.allowed`: what follows for what is taken in and given, and for faults. -/

namespace NumericScript

open Analysis
open Machine (Goes bind_eq_ok)

namespace Image

/-- The run from `p` comes to `q`, and all points before have a property. -/
inductive ReachesBy (image : Image) (P : Point → Prop) (p : Point) : Point → Prop where
  | refl : ReachesBy image P p p
  | tail {q r : Point} (hq : ReachesBy image P p q) (hP : P q) (h : image.advance q = .next r) :
      ReachesBy image P p r

/-- At a point the run ends with a fault: of an instruction, or of a line of input that cannot be
read. -/
inductive Faults (image : Image) : Point → Fault → Prop where
  | step {p : Point} {m : Machine} {f : Fault} (h : p.machine.step image = .faulted m f) :
      Faults image p f
  | input {p : Point} {m : Machine} {d : Place} {t : Ty} {line : String} {rest : List String}
      {f : Fault} (h : p.machine.step image = .awaiting m d t) (hu : p.unread = line :: rest)
      (hv : Value.ofInput line t = .error f) : Faults image p f

/-- Where a run faults it ends, and it says so. -/
theorem Faults.advance {image : Image} {p : Point} {f : Fault} (h : image.Faults p f) :
    ∃ m unread, image.advance p = .done (image.faultOutcome m f unread) := by
  cases h with
  | @step m f h => exact ⟨m, p.unread, by rw [Image.advance, h]⟩
  | @input m d t line rest f h hu hv =>
    refine ⟨m, rest, ?_⟩
    rw [Image.advance, h]
    dsimp only
    rw [hu]
    dsimp only
    rw [hv]

end Image

/-- If there is a value and no fault, it is of a type. -/
def Ty.HasIfOk (shapes : Bool) (t : Ty) (x : Except Fault Value) : Prop :=
  ∀ v, x = .ok v → t.Has shapes v

/-- What an instruction takes in and gives is of the types that its note says.  What it gives is if
what it moves is. -/
structure Note.Keeps (shapes : Bool) (n : Note) (m : Machine) (op : Op) : Prop where
  reads : List.Forall₂ (Ty.HasIfOk shapes) n.reads (m.inputs op)
  gives : n.Upheld shapes m op → ∀ d v t, op.dest? = some d → m.effect op = some (d, .ok v) →
    n.gives = some t → t.Has shapes v

/-- The faults that the known types of what is taken in do not exclude: that a global variable has
no value yet, and that the shapes of two matrices do not go together of which one is not known.
And all others that depend on more than the types. -/
structure Note.Allows (shapes : Bool) (n : Note) (m : Machine) (op : Op) (f : Fault) : Prop where
  typing : f.isTyping = true → ∃ slot, .place (.var ⟨slot, .global⟩) ∈ op.reads ∧
    m.globals.get? slot = none ∧ f = .undefinedVariable (Place.var ⟨slot, .global⟩).text
  shapes : shapes = true → f.isShapes = true → .matrix none ∈ n.reads

theorem Note.Allows.of_plain {shapes : Bool} {n : Note} {m : Machine} {op : Op} {f : Fault}
    (h : Outcome.Plain f) : n.Allows shapes m op f where
  typing := fun hf => by rw [h.1] at hf; cases hf
  shapes := fun _ hf => by rw [h.2] at hf; cases hf

namespace Typing

section

variable {shapes : Bool} {I : Interface} {code : List Instr} {notes : List Note}
  {S S' T : Assertion} {m : Machine} {image : Image} {op : Op} {n : Note}

namespace Holds

/-! ### What is taken in and given -/

theorem reads_index (h : Holds shapes I code notes m S) {row : Operand} {col : Option Operand}
    {ts : List Ty} (hi : IndexHas I S row col ts) :
    List.Forall₂ (Ty.HasIfOk shapes) ts
      ((row :: col.toList).map m.eval) := by
  cases hi with
  | element hr ht => exact .cons (fun v hv => h.has_of_eval hr hv) .nil
  | entry hr ht hc ht' =>
    exact .cons (fun v hv => h.has_of_eval hr hv) (.cons (fun v hv => h.has_of_eval hc hv) .nil)

/-- What an instruction takes in is of the types that its note says. -/
theorem reads (h : Holds shapes I code notes m S) (hop : OpTyped shapes I S op n S') :
    List.Forall₂ (Ty.HasIfOk shapes) n.reads (m.inputs op) := by
  have hone : ∀ {o : Operand} {t : Ty}, OperandHas I S o t →
      List.Forall₂ (Ty.HasIfOk shapes) [t] [m.eval o] :=
    fun ho => .cons (fun v hv => h.has_of_eval ho hv) .nil
  have hargs : ∀ {ts before : List Ty}, S.args = ts.reverse ++ before →
      List.Forall₂ (Ty.HasIfOk shapes) ts
        ((m.args.take ts.length).reverse.map .ok) := by
    intro ts before hargs
    rw [List.forall₂_map_right_iff]
    exact (h.args_of_call hargs).1.imp fun t v hv w hw => by cases hw; exact hv
  cases hop with
  | copy ho hf hw => exact hone ho
  | binary hl hr ht hw => exact .cons (fun v hv => h.has_of_eval hl hv) (hone hr)
  | unary ho ht hw => exact hone ho
  | widen ho hw => exact hone ho
  | jumpIfFalse ho ht hl hS => exact hone ho
  | param ho hf => exact hone ho
  | builtin ha hS => exact hargs hS
  | user hf hS => exact hargs hS
  | «return» ho hf hS => exact hone ho
  | print ho => exact hone ho
  | load hb hi ht hw => exact .cons (fun v hv => h.has_of_eval hb hv) (h.reads_index hi)
  | storeElement hb hi ht hm ho hf =>
    refine .cons (fun v hv => h.has_of_eval hb hv) ?_
    have hboth := List.rel_append (h.reads_index hi) (hone ho)
    simpa using hboth
  | storeEntry hb hi ho hn =>
    refine .cons (fun v hv => h.has_of_eval hb hv) ?_
    have hboth := List.rel_append (h.reads_index hi) (hone ho)
    simpa using hboth
  | fill hu ho hf =>
    exact .cons (fun v hv => by cases hv; exact Ty.has_int _) (hone ho)
  | entry hu ho hn =>
    exact .cons (fun v hv => by cases hv; exact Ty.has_int _)
      (.cons (fun v hv => by cases hv; exact Ty.has_int _) (hone ho))
  | _ => exact .nil

theorem keeps (h : Holds shapes I code notes m S) (hop : OpTyped shapes I S op n S') :
    n.Keeps shapes m op where
  reads := h.reads hop
  gives := by
    intro hu d v t hd he ht
    obtain ⟨c, -, hc, hcontent⟩ := h.exists_writes hop hu he
    rw [hcontent hd t ht] at hc
    exact hc

/-! ### Faults -/

/-- An operand has a value unless it is a global variable that has none yet. -/
theorem allows_of_eval (h : Holds shapes I code notes m S) {o : Operand} {t : Ty}
    (ho : OperandHas I S o t) (hmem : o ∈ op.reads) {f : Fault} (hf : m.eval o = .error f) :
    n.Allows shapes m op f := by
  obtain ⟨slot, rfl, hnone, rfl⟩ := h.global_of_eval ho hf
  exact ⟨fun _ => ⟨slot, hmem, hnone, rfl⟩, fun _ hs => by cases hs⟩

theorem allows_of_evalInt (h : Holds shapes I code notes m S) {o : Operand} {t : Ty}
    (ho : OperandHas I S o t) (ht : maybeInt t = true) (hk : t.isKnown = true)
    (hmem : o ∈ op.reads) {f : Fault} (hf : m.evalInt o = .error f) : n.Allows shapes m op f := by
  rcases bind_eq_error.1 hf with hf | ⟨v, hv, hf⟩
  · exact h.allows_of_eval ho hmem hf
  · have hint : t = .int := by
      rcases (Bool.or_eq_true_iff ..).1 ht with ht | ht
      · exact of_decide_eq_true ht
      · rw [of_decide_eq_true ht] at hk
        cases hk
    subst hint
    obtain ⟨k, rfl⟩ := h.has_of_eval ho hv
    cases hf

/-- Whole numbers are found where indices are asked for. -/
theorem allows_of_index (h : Holds shapes I code notes m S) {row : Operand} {col : Option Operand}
    {ts : List Ty} (hi : IndexHas I S row col ts) (hk : ∀ t ∈ ts, t.isKnown = true)
    (hmem : ∀ o ∈ row :: col.toList, o ∈ op.reads) {f : Fault}
    (hf : m.evalInt row = .error f ∨ m.evalIndex col = .error f) : n.Allows shapes m op f := by
  cases hi with
  | element hr ht =>
    rcases hf with hf | hf
    · exact h.allows_of_evalInt hr ht (hk _ (by simp)) (hmem _ (by simp)) hf
    · cases hf
  | @entry col _ _ hr ht hc ht' =>
    rcases hf with hf | hf
    · exact h.allows_of_evalInt hr ht (hk _ (by simp)) (hmem _ (by simp)) hf
    · refine h.allows_of_evalInt hc ht' (hk _ (by simp)) (hmem _ (by simp)) ?_
      change some <$> m.evalInt col = .error f at hf
      cases he : m.evalInt col with
      | error e =>
        rw [he] at hf
        cases hf
        rfl
      | ok i =>
        rw [he] at hf
        cases hf

theorem allows_of_apply {op' : BinaryOp} {left right t : Ty} {a b : Value}
    (ht : binaryTy? op' left right = some t) (hn : n.reads = [left, right])
    (hk : ∀ t ∈ n.reads, t.isKnown = true) (ha : left.Has shapes a) (hb : right.Has shapes b)
    {f : Fault} (hf : op'.apply a b = .error f) : n.Allows shapes m op f := by
  rw [hn] at hk
  have hleft := Ty.ne_unknown_of_isKnown (hk left (by simp))
  have hright := Ty.ne_unknown_of_isKnown (hk right (by simp))
  rw [binaryTy?, if_neg (by simp [hleft, hright])] at ht
  have hout := Outcome.apply ha hb ht
  rw [hf] at hout
  refine ⟨fun h => ?_, fun hs h => ?_⟩
  · rw [hout.1] at h
    cases h
  · rw [hn]
    rcases hout.2 hs h with rfl | rfl
    · simp
    · simp

theorem allows_of_applyUnary {op' : UnaryOp} {operand t : Ty} {a : Value}
    (ht : unaryTy? op' operand = some t) (hk : operand.isKnown = true) (ha : operand.Has shapes a)
    {f : Fault} (hf : op'.fn.apply a = .error f) : n.Allows shapes m op f := by
  have hoperand := Ty.ne_unknown_of_isKnown hk
  rw [unaryTy?, if_neg (by simp [hoperand])] at ht
  have hout := Outcome.applyUnary ha ht
  rw [hf] at hout
  exact .of_plain hout

theorem allows_of_storeIndex {container t : Ty} {base v : Value} {i : Int64} {j : Option Int64}
    (ht : elementTy? container j.isSome = some t) (hm : container.isMatrix = false)
    (hk : container.isKnown = true) (hb : container.Has shapes base) {f : Fault}
    (hf : base.storeIndex i j v = .error f) : n.Allows shapes m op f := by
  cases container with
  | unknown => cases hk
  | array element =>
    cases j with
    | some j => cases ht
    | none =>
      obtain ⟨items, rfl, -⟩ := hb
      rcases bind_eq_error.1 hf with hf | ⟨k, -, hf⟩
      · exact .of_plain (Outcome.checkedIndex_error hf)
      · cases hf
  | matrix shape => cases hm
  | _ => cases ht

theorem allows_of_storeEntry {shape : Option (Nat × Nat)} {found : Ty} {base v : Value}
    {i : Int64} {j : Option Int64} (hj : j.isSome = true)
    (hn : (found.isNumeric || found.isUnknown) = true) (hk : found.isKnown = true)
    (hb : (Ty.matrix shape).Has shapes base) (hv : found.Has shapes v) {f : Fault}
    (hf : base.storeIndex i j v = .error f) : n.Allows shapes m op f := by
  obtain ⟨j, rfl⟩ := Option.isSome_iff_exists.1 hj
  have hout := Outcome.storeIndex_matrix (i := i) (j := j) hb hv hn
  rw [hf] at hout
  exact .of_plain (hout (Ty.ne_unknown_of_isKnown hk))

/-- An operation that gives a place a value. -/
theorem allows_of_effect (h : Holds shapes I code notes m S) (hop : OpTyped shapes I S op n S')
    (hk : ∀ t ∈ n.reads, t.isKnown = true) {d : Place} {f : Fault}
    (hf : m.effect op = some (d, .error f)) : n.Allows shapes m op f := by
  cases hop with
  | copy ho hm hw =>
    obtain ⟨-, hf⟩ := Prod.mk.inj (Option.some.inj hf)
    exact h.allows_of_eval ho (by simp [Op.reads, Op.operands]) hf
  | binary hl hr ht hw =>
    obtain ⟨-, hf⟩ := Prod.mk.inj (Option.some.inj hf)
    rcases bind_eq_error.1 hf with hf | ⟨a, ha, hf⟩
    · exact h.allows_of_eval hl (by simp [Op.reads, Op.operands]) hf
    rcases bind_eq_error.1 hf with hf | ⟨b, hb, hf⟩
    · exact h.allows_of_eval hr (by simp [Op.reads, Op.operands]) hf
    exact allows_of_apply ht rfl hk (h.has_of_eval hl ha) (h.has_of_eval hr hb) hf
  | unary ho ht hw =>
    obtain ⟨-, hf⟩ := Prod.mk.inj (Option.some.inj hf)
    rcases bind_eq_error.1 hf with hf | ⟨a, ha, hf⟩
    · exact h.allows_of_eval ho (by simp [Op.reads, Op.operands]) hf
    exact allows_of_applyUnary ht (hk _ (by simp)) (h.has_of_eval ho ha) hf
  | widen ho hw =>
    obtain ⟨-, hf⟩ := Prod.mk.inj (Option.some.inj hf)
    rcases bind_eq_error.1 hf with hf | ⟨a, ha, hf⟩
    · exact h.allows_of_eval ho (by simp [Op.reads, Op.operands]) hf
    have hout := Outcome.applyToFloat (h.has_of_eval ho ha)
    rw [hf] at hout
    exact .of_plain hout
  | @load d b row col container t ts _ hb hi ht hw =>
    obtain ⟨-, hf⟩ := Prod.mk.inj (Option.some.inj hf)
    have hindex : ∀ o ∈ row :: col.toList, o ∈ (Op.load d b row col).reads :=
      fun o ho => List.mem_cons_of_mem b ho
    have hkts : ∀ t ∈ ts, t.isKnown = true := fun t ht => hk t (List.mem_cons_of_mem _ ht)
    rcases bind_eq_error.1 hf with hf | ⟨i, -, hf⟩
    · exact h.allows_of_index hi hkts hindex (.inl hf)
    rcases bind_eq_error.1 hf with hf | ⟨j, hj, hf⟩
    · exact h.allows_of_index hi hkts hindex (.inr hf)
    rcases bind_eq_error.1 hf with hf | ⟨base, hbase, hf⟩
    · exact h.allows_of_eval hb (by simp [Op.reads, Op.operands]) hf
    rw [← isSome_of_evalIndex hj] at ht
    have hcontainer := Ty.ne_unknown_of_isKnown (hk container (by simp))
    have hout := Outcome.loadIndex (i := i) (h.has_of_eval hb hbase) hcontainer ht
    rw [hf] at hout
    exact .of_plain hout
  | @storeElement x row o col container t found ts hb hi ht hm ho hmoves =>
    obtain ⟨-, hf⟩ := Prod.mk.inj (Option.some.inj hf)
    have hindex : ∀ o' ∈ row :: col.toList, o' ∈ (Op.store (.var x) row col o).reads := by
      intro o' ho'
      simp only [Op.reads, List.mem_cons, List.mem_append] at ho' ⊢
      tauto
    have hkts : ∀ t ∈ ts, t.isKnown = true := fun t ht => hk t (by simp [ht])
    rcases bind_eq_error.1 hf with hf | ⟨i, -, hf⟩
    · exact h.allows_of_index hi hkts hindex (.inl hf)
    rcases bind_eq_error.1 hf with hf | ⟨j, hj, hf⟩
    · exact h.allows_of_index hi hkts hindex (.inr hf)
    rcases bind_eq_error.1 hf with hf | ⟨v, hv, hf⟩
    · exact h.allows_of_eval ho (by simp [Op.reads]) hf
    rcases bind_eq_error.1 hf with hf | ⟨base, hbase, hf⟩
    · exact h.allows_of_eval hb (by simp [Op.reads]) hf
    rw [← isSome_of_evalIndex hj] at ht
    exact allows_of_storeIndex ht hm (hk _ (by simp)) (h.has_of_eval hb hbase) hf
  | @storeEntry x row col o shape found ts hb hi ho hn =>
    obtain ⟨-, hf⟩ := Prod.mk.inj (Option.some.inj hf)
    have hindex : ∀ o' ∈ [row, col], o' ∈ (Op.store (.var x) row (some col) o).reads := by
      intro o' ho'
      simp only [Op.reads, List.mem_cons, List.mem_append, Option.mem_toList] at ho' ⊢
      tauto
    have hkts : ∀ t ∈ ts, t.isKnown = true := fun t ht => hk t (by simp [ht])
    rcases bind_eq_error.1 hf with hf | ⟨i, -, hf⟩
    · exact h.allows_of_index hi hkts hindex (.inl hf)
    rcases bind_eq_error.1 hf with hf | ⟨j, hj, hf⟩
    · exact h.allows_of_index hi hkts hindex (.inr hf)
    rcases bind_eq_error.1 hf with hf | ⟨v, hv, hf⟩
    · exact h.allows_of_eval ho (by simp [Op.reads]) hf
    rcases bind_eq_error.1 hf with hf | ⟨base, hbase, hf⟩
    · exact h.allows_of_eval hb (by simp [Op.reads]) hf
    exact allows_of_storeEntry (isSome_of_evalIndex hj) hn (hk _ (by simp))
      (h.has_of_eval hb hbase) (h.has_of_eval ho hv) hf
  | @fill u len k o element found hu ho hmoves =>
    obtain ⟨-, hf⟩ := Prod.mk.inj (Option.some.inj hf)
    rcases bind_eq_error.1 hf with hf | ⟨i, -, hf⟩
    · cases hf
    rcases bind_eq_error.1 hf with hf | ⟨j, hj, hf⟩
    · cases hf
    rcases bind_eq_error.1 hf with hf | ⟨v, hv, hf⟩
    · exact h.allows_of_eval ho (by simp [Op.reads, Op.operands]) hf
    rcases bind_eq_error.1 hf with hf | ⟨base, hbase, hf⟩
    · obtain ⟨w, hw⟩ := h.read_of_temps hu
      rw [hw] at hf
      cases hf
    cases hj
    obtain ⟨items, rfl, -⟩ := h.content_of_read hu hbase
    rcases bind_eq_error.1 hf with hf | ⟨k, -, hf⟩
    · exact .of_plain (Outcome.checkedIndex_error hf)
    · cases hf
  | @entry u r c o shape found hu ho hn =>
    obtain ⟨-, hf⟩ := Prod.mk.inj (Option.some.inj hf)
    rcases bind_eq_error.1 hf with hf | ⟨i, -, hf⟩
    · cases hf
    rcases bind_eq_error.1 hf with hf | ⟨j, hj, hf⟩
    · cases hf
    rcases bind_eq_error.1 hf with hf | ⟨v, hv, hf⟩
    · exact h.allows_of_eval ho (by simp [Op.reads, Op.operands]) hf
    rcases bind_eq_error.1 hf with hf | ⟨base, hbase, hf⟩
    · obtain ⟨w, hw⟩ := h.read_of_temps hu
      rw [hw] at hf
      cases hf
    exact allows_of_storeEntry (isSome_of_evalIndex hj) hn (hk _ (by simp))
      (h.content_of_read hu hbase) (h.has_of_eval ho hv) hf
  | _ => cases hf

theorem plain_of_leave {v : Option Value} {f : Fault} (h : Machine.leave m v = .error f) :
    Outcome.Plain f := by
  unfold Machine.leave at h
  split at h
  · cases h
  · split at h <;> cases h
    exact ⟨rfl, rfl⟩

/-- A call finds its arguments. -/
theorem not_args_lt (h : Holds shapes I code notes m S) {ts before : List Ty}
    (hargs : S.args = ts.reverse ++ before) : ¬ m.args.length < ts.length := by
  have hlen := (h.args_of_call hargs).1.length_eq
  rw [List.length_reverse, List.length_take] at hlen
  omega

theorem allows_of_call (hfits : I.Fits shapes code notes image)
    (h : Holds shapes I code notes m S) {callee : Callee} {argc : Nat}
    (hop : OpTyped shapes I S (.call callee argc) n S')
    (hk : ∀ t ∈ n.reads, t.isKnown = true) {f : Fault}
    (hf : Machine.call image m callee argc = .error f) : n.Allows shapes m op f := by
  cases hop with
  | @builtin b ts before ha hargs =>
    rw [Machine.call, if_neg (h.not_args_lt hargs)] at hf
    rcases bind_eq_error.1 hf with hf | ⟨v, hv, hf⟩
    · exact .of_plain (Builtin.plain_of_call ha hk (h.args_of_call hargs).1 hf)
    · cases hf
  | @user g params before returns hg hargs =>
    obtain ⟨info, hinfo, hparams, -, ⟨k, hpos⟩, -⟩ := hfits.callees g params returns hg
    have hlength := (h.args_of_call hargs).1.length_eq
    rw [Machine.call, if_neg (h.not_args_lt hargs)] at hf
    dsimp only [Machine.callUser] at hf
    rw [hinfo] at hf
    dsimp only at hf
    rw [if_neg (fun hne => hne (hparams.trans hlength))] at hf
    split at hf
    · cases hf
      exact .of_plain ⟨rfl, rfl⟩
    · rcases bind_eq_error.1 hf with hf | ⟨v, hv, hf⟩
      · rw [hpos] at hf
        cases hf
      · cases hf

/-- A branch finds a truth value and its label. -/
theorem allows_of_jumpIfFalse (h : Holds shapes I code notes m S) {o : Operand} {l : Label} {t : Ty}
    (ho : OperandHas I S o t) (ht : maybeBool t = true) (hk : t.isKnown = true) {k : Nat}
    (hpos : image.position l = .ok k) {f : Fault}
    (hf : Machine.execute image m (.jumpIfFalse o l) = .error f) :
    n.Allows shapes m (.jumpIfFalse o l) f := by
  rcases bind_eq_error.1 hf with hf | ⟨v, hv, hf⟩
  · exact h.allows_of_eval ho (by simp [Op.reads, Op.operands]) hf
  have hbool : t = .bool := by
    rcases (Bool.or_eq_true_iff ..).1 ht with ht | ht
    · exact of_decide_eq_true ht
    · exact absurd (of_decide_eq_true ht) (Ty.ne_unknown_of_isKnown hk)
  subst hbool
  obtain ⟨b, rfl⟩ := h.has_of_eval ho hv
  rcases bind_eq_error.1 hf with hf | ⟨b', hb', hf⟩
  · cases hf
  cases b' with
  | true =>
    rw [if_pos rfl] at hf
    cases hf
  | false =>
    rw [if_neg Bool.false_ne_true, hpos] at hf
    cases hf

/-- The faults of an operation that is noted are among those that its note allows, if all types
in it are known. -/
theorem allows (hfits : I.Fits shapes code notes image) (h : Holds shapes I code notes m S)
    (hop : OpTyped shapes I S op n S') {i : Instr} (hi : i ∈ code) (hio : i.op = op)
    (hk : ∀ t ∈ n.reads, t.isKnown = true) {f : Fault}
    (hf : Machine.execute image m op = .error f) : n.Allows shapes m op f := by
  have htarget : ∀ l, op.target? = some l → ∃ k, image.position l = .ok k := by
    rw [← hio]
    exact hfits.targets i hi
  cases he : m.effect op with
  | some dx =>
    obtain ⟨d, x⟩ := dx
    rw [Machine.execute_of_effect he] at hf
    rcases bind_eq_error.1 hf with rfl | ⟨v, hv, hf⟩
    · exact h.allows_of_effect hop hk he
    · cases hf
  | none =>
    cases hop with
    | jump hl hS =>
      obtain ⟨k, hk⟩ := htarget _ rfl
      rcases bind_eq_error.1 hf with hf | ⟨v, hv, hf⟩
      · rw [hk] at hf
        cases hf
      · cases hf
    | @jumpIfFalse o l t T ho ht hl hS =>
      obtain ⟨k, hpos⟩ := htarget _ rfl
      exact h.allows_of_jumpIfFalse ho ht (hk t (by simp)) hpos hf
    | param ho hm =>
      rcases bind_eq_error.1 hf with hf | ⟨v, hv, hf⟩
      · exact h.allows_of_eval ho (by simp [Op.reads, Op.operands]) hf
      · cases hf
    | builtin ha hargs => exact h.allows_of_call hfits (.builtin ha hargs) hk hf
    | user hg hargs => exact h.allows_of_call hfits (.user hg hargs) hk hf
    | leave hargs => exact .of_plain (plain_of_leave hf)
    | «return» ho hm hargs =>
      rcases bind_eq_error.1 hf with hf | ⟨v, hv, hf⟩
      · exact h.allows_of_eval ho (by simp [Op.reads, Op.operands]) hf
      · exact .of_plain (plain_of_leave hf)
    | print ho =>
      rcases bind_eq_error.1 hf with hf | ⟨v, hv, hf⟩
      · exact h.allows_of_eval ho (by simp [Op.reads, Op.operands]) hf
      · cases hf
    | label | input | halt => cases hf
    | _ => cases he

end Holds

/-! ### Runs -/

theorem upheld_noted (line : Nat) :
    n.Upheld shapes (m.noted line) op ↔ n.Upheld shapes m op := by
  simp only [Note.Upheld, Machine.eval_noted]

/-- Something holds of the instruction that comes next and of its note. -/
def NextIs (code : List Instr) (notes : List Note) (P : Note → Machine → Op → Prop)
    (p : Point) : Prop :=
  ∀ i n, code[p.machine.pc]? = some i → notes[p.machine.pc]? = some n → P n p.machine i.op

/-- What is known at its position holds of the machine. -/
def Known (shapes : Bool) (I : Interface) (code : List Instr) (notes : List Note) (p : Point) :
    Prop :=
  ∃ S, At shapes I code notes p.machine.pc S ∧ Holds shapes I code notes p.machine S

namespace Known

variable {p q : Point}

/-- There is a note for the next instruction. -/
theorem noted (h : Known shapes I code notes p) {i : Instr} (hi : code[p.machine.pc]? = some i) :
    ∃ n, notes[p.machine.pc]? = some n := by
  obtain ⟨S, hat, -⟩ := h
  obtain ⟨n, -, -, hn, -⟩ := hat.next hi
  exact ⟨n, hn⟩

theorem keeps (h : Known shapes I code notes p) :
    NextIs code notes (Note.Keeps shapes) p := by
  intro i n hi hn
  obtain ⟨S, hat, hm⟩ := h
  obtain ⟨n', S₁, S₂, hn', hS, hop, -⟩ := hat.next hi
  rw [hn] at hn'
  cases hn'
  exact (hm.of_entails hS).keeps hop

/-- What is known holds from step to step. -/
theorem next (hfits : I.Fits shapes code notes image) (h : Known shapes I code notes p)
    (hu : NextIs code notes (Note.Upheld shapes) p) (hadv : image.advance p = .next q) :
    Known shapes I code notes q := by
  obtain ⟨S, hat, hm⟩ := h
  obtain ⟨i, hi, hstep⟩ := Image.advance_eq_next hadv
  rw [hfits.instrs, List.getElem?_toArray] at hi
  obtain ⟨n, S₁, S₂, hn, hS, hop, hnext⟩ := hat.next hi
  have hm := hm.of_entails hS
  have hupheld := (upheld_noted i.line).2 (hu i n hi hn)
  rcases hstep with ⟨hl, rfl⟩ | ⟨m', hgo, rfl⟩ | ⟨d, ty, line, rest, v, hd, -, hv, rfl⟩
  · obtain ⟨l, hl⟩ := Option.isSome_iff_exists.1 hl
    have hlabel : i.op = .label l := by
      cases hop' : i.op <;> rw [hop'] at hl <;> cases hl
      rfl
    rw [hlabel] at hop hupheld
    exact hm.of_goes hfits hop hnext ((upheld_noted i.line).1 hupheld) .label
  · rw [← Machine.pc_noted p.machine i.line] at hnext
    exact (hm.noted i.line).of_goes hfits hop hnext hupheld hgo
  · rw [← Machine.pc_noted p.machine i.line] at hnext
    exact (hm.noted i.line).of_input hop hnext hd hv

theorem of_reachesBy (hfits : I.Fits shapes code notes image) (h : Known shapes I code notes p)
    (hq : image.ReachesBy (NextIs code notes (Note.Upheld shapes)) p q) :
    Known shapes I code notes q := by
  induction hq with
  | refl => exact h
  | tail _ hu hadv ih => exact ih.next hfits hu hadv

/-- Where all types are known, a run faults only in the ways that they leave. -/
theorem allows (hfits : I.Fits shapes code notes image) (h : Known shapes I code notes p)
    (hk : ∀ n ∈ notes, ∀ t ∈ n.reads, t.isKnown = true) {f : Fault} (hf : image.Faults p f) :
    ∃ i n, code[p.machine.pc]? = some i ∧ notes[p.machine.pc]? = some n ∧
      n.Allows shapes p.machine i.op f := by
  obtain ⟨S, hat, hm⟩ := h
  have hexecuted : ∃ i, code[p.machine.pc]? = some i := by
    cases hi : code[p.machine.pc]? with
    | some i => exact ⟨i, rfl⟩
    | none =>
      have hnone : image.instrs[p.machine.pc]? = none := by
        rw [hfits.instrs, List.getElem?_toArray, hi]
      cases hf with
      | step h =>
        rw [Machine.step, hnone] at h
        cases h
      | input h =>
        rw [Machine.step, hnone] at h
        cases h
  obtain ⟨i, hi⟩ := hexecuted
  obtain ⟨n, S₁, S₂, hn, hS, hop, hnext⟩ := hat.next hi
  refine ⟨i, n, hi, hn, ?_⟩
  cases hf with
  | input h hu hv => exact .of_plain (Value.plain_of_ofInput hv)
  | @step m' f h =>
    have himage : image.instrs[p.machine.pc]? = some i := by
      rw [hfits.instrs, List.getElem?_toArray, hi]
    rw [Machine.step, himage] at h
    dsimp only at h
    split at h
    · cases h
    rw [Machine.perform] at h
    dsimp only at h
    split at h
    · cases h
      exact .of_plain ⟨rfl, rfl⟩
    rw [← Machine.noted] at h
    split at h <;> cases h
    rename_i he
    have hallows := ((hm.of_entails hS).noted i.line).allows hfits hop (List.mem_of_getElem? hi) rfl
      (hk n (List.mem_of_getElem? hn)) he
    refine ⟨fun ht => ?_, hallows.shapes⟩
    have htyping := hallows.typing ht
    rwa [Machine.globals_noted] at htyping

end Known

end

end Typing

end NumericScript
