import NumericScript.Proofs.Step
import NumericScript.Proofs.Typing.Flow

/-! # Machines on typed code

What an assertion says of a machine, and that the machine keeps to what is known along the code:
where an instruction is executed in a state as its assertion says, the next state is as the next
assertion says.  The values that are moved although their static type leaves something open are
beyond what the types can say; `Note.Upheld` says that such a value is of the type of its place.

* `Op.reads`, `Machine.inputs`: what an instruction takes in.
* `Holds`: what an assertion says of a machine.
* `Holds.of_effect`, `Holds.of_goes`, `Holds.of_input`: the machine keeps to what is known. -/

namespace NumericScript

open Analysis
open Machine (Goes bind_eq_ok)

/-! ### What instructions take in -/

namespace Op

/-- The operands that an operation reads, in the order of its note.  A variable is read when an
element of it is replaced. -/
def reads : Op → List Operand
  | .store (.var x) row col o => .place (.var x) :: row :: (col.toList ++ [o])
  | op => op.operands

/-- The operand whose value an operation moves to a place as it is. -/
def moved? : Op → Option Operand
  | .copy _ o | .param o | .return (some o) | .store _ _ _ o => some o
  | _ => none

end Op

/-- What an instruction takes in: the values of its operands, or the arguments of a call. -/
def Machine.inputs (m : Machine) : Op → List (Except Fault Value)
  | .call _ argc => (m.args.take argc).reverse.map .ok
  | op => op.reads.map m.eval

/-- A value that is moved to a place although its static type leaves something open is of the type
of the place. -/
def Note.Upheld (shapes : Bool) (n : Note) (m : Machine) (op : Op) : Prop :=
  ∀ o found t v, op.moved? = some o → n.reads.getLast? = some found → n.gives = some t →
    found.isOpen shapes = true → m.eval o = .ok v → t.Has shapes v

theorem Note.Upheld.has {shapes : Bool} {n : Note} {m : Machine} {op : Op} {o : Operand}
    {found t : Ty} {v : Value} (h : n.Upheld shapes m op) (ho : op.moved? = some o)
    (hr : n.reads.getLast? = some found) (hg : n.gives = some t)
    (hm : Typing.Moves shapes found t) (hv : m.eval o = .ok v) (hf : found.Has shapes v) :
    t.Has shapes v := by
  rcases hm with hopen | hfits
  · exact h o found t v ho hr hg hopen hv
  · exact Ty.has_of_fits hfits hf

namespace Typing

/-! ### What assertions say -/

/-- What a frame holds. -/
structure FrameHas (shapes : Bool) (S : Assertion) (f : Frame) : Prop where
  locals : ∀ slot t, S.locals slot = some t →
    ∃ v, f.locals.get? slot = some v ∧ t.Has shapes v
  temps : ∀ u c, S.temps u = some c → ∃ v, f.temps.get? u = some v ∧ c.Has shapes v

section

variable (shapes : Bool) (I : Interface) (code : List Instr) (notes : List Note)

/-- The calls that have not returned, of which the innermost is to give a value of a type: it is
known what holds where each goes back to, and which arguments were passed there before it. -/
inductive Suspended : Ty → List Frame → Frame → List Value → Prop where
  | top {returns : Ty} {main : Frame} {rest : List Value} : Suspended returns [] main rest
  | call {returns : Ty} {f main : Frame} {fs : List Frame} {own rest : List Value} {S : Assertion}
      (hat : At shapes I code notes f.returnAddress S)
      (hret : ∀ t, S.returned = some t → t = returns ∧ f.returnsValue = true)
      (hframe : FrameHas shapes S (fs.headD main)) (hown : List.Forall₂ (Ty.Has shapes) S.args own)
      (h : Suspended S.returns fs main rest) : Suspended returns (f :: fs) main (own ++ rest)

/-- What an assertion says of a machine. -/
structure Holds (m : Machine) (S : Assertion) : Prop where
  globals : ∀ slot t v, I.globals slot = some t → m.globals.get? slot = some v → t.Has shapes v
  frame : FrameHas shapes S m.frame
  returned : ∀ t, S.returned = some t → ∃ v, m.returned = some v ∧ t.Has shapes v
  args : ∃ own rest, m.args = own ++ rest ∧ List.Forall₂ (Ty.Has shapes) S.args own ∧
    Suspended shapes I code notes S.returns m.calls m.main rest

/-- What is known everywhere fits the code. -/
structure Interface.Fits (image : Image) : Prop where
  instrs : image.instrs = code.toArray
  labels : ∀ l k, image.position l = .ok k →
    ∃ T, I.labels l = some T ∧ At shapes I code notes k T
  targets : ∀ i ∈ code, ∀ l, i.op.target? = some l → ∃ k, image.position l = .ok k
  callees : ∀ f params returns, I.callees f = some (params, returns) →
    ∃ info, image.functions.get? f = some info ∧ info.params.length = params.length ∧
      info.returnsValue = decide (returns ≠ .void) ∧ (∃ k, image.position info.label = .ok k) ∧
      ∀ T, I.labels info.label = some T → T.args = [] ∧ T.returned = none ∧ T.returns = returns ∧
        ∀ args returnAddress, List.Forall₂ (Ty.Has shapes) params args →
          FrameHas shapes T (Machine.callFrame info args returnAddress)

end

section

variable {shapes : Bool} {I : Interface} {code : List Instr} {notes : List Note}
  {S S' T : Assertion} {m m' : Machine} {image : Image}

theorem FrameHas.of_entails {f : Frame} (h : FrameHas shapes S f) (hS : S.Entails shapes T) :
    FrameHas shapes T f where
  locals := fun slot t ht => h.locals slot t (hS.locals slot t ht)
  temps := by
    intro u d hd
    obtain ⟨c, hc, hcd⟩ := hS.temps u d hd
    obtain ⟨v, hv, hcv⟩ := h.temps u c hc
    exact ⟨v, hv, hcd v hcv⟩

namespace Holds

theorem of_entails (h : Holds shapes I code notes m S) (hS : S.Entails shapes T) :
    Holds shapes I code notes m T where
  globals := h.globals
  frame := h.frame.of_entails hS
  returned := fun t ht => h.returned t (hS.returned t ht)
  args := by
    rw [← hS.args, ← hS.returns]
    exact h.args

/-- What an assertion says does not depend on the position and on what was printed. -/
theorem of_eq (h : Holds shapes I code notes m S) (hg : m'.globals = m.globals)
    (hmain : m'.main = m.main) (hcalls : m'.calls = m.calls) (hargs : m'.args = m.args)
    (hret : m'.returned = m.returned) : Holds shapes I code notes m' S := by
  have hframe : m'.frame = m.frame := by rw [Machine.frame, Machine.frame, hmain, hcalls]
  refine ⟨?_, ?_, ?_, ?_⟩
  · rw [hg]; exact h.globals
  · rw [hframe]; exact h.frame
  · rw [hret]; exact h.returned
  · rw [hargs, hcalls, hmain]; exact h.args

theorem next (h : Holds shapes I code notes m S) : Holds shapes I code notes m.next S :=
  h.of_eq rfl rfl rfl rfl rfl

/-- A frame may change as long as the assertion holds of it and it goes back to where it went. -/
theorem modifyFrame (h : Holds shapes I code notes m S) {g : Frame → Frame}
    (hg : FrameHas shapes S' (g m.frame)) (haddress : ∀ f, (g f).returnAddress = f.returnAddress)
    (hvalue : ∀ f, (g f).returnsValue = f.returnsValue) (hargs : S'.args = S.args)
    (hret : ∀ t, S'.returned = some t → S.returned = some t) (hreturns : S'.returns = S.returns) :
    Holds shapes I code notes (m.modifyFrame g) S' where
  globals := by
    rw [Machine.globals_modifyFrame]
    exact h.globals
  frame := by
    rw [Machine.frame_modifyFrame]
    exact hg
  returned := by
    rw [Machine.returned_modifyFrame]
    exact fun t ht => h.returned t (hret t ht)
  args := by
    obtain ⟨own, rest, hm, hown, hcalls⟩ := h.args
    rw [Machine.args_modifyFrame, hargs, hreturns]
    refine ⟨own, rest, hm, hown, ?_⟩
    unfold Machine.modifyFrame
    cases hc : m.calls with
    | nil => exact .top
    | cons f fs =>
      rw [hc] at hcalls
      cases hcalls with
      | @call _ _ _ _ own rest S₀ hat hr hframe hown₀ hrest =>
        refine .call ?_ ?_ hframe hown₀ hrest
        · rw [haddress]
          exact hat
        · rw [hvalue]
          exact hr

theorem noted (h : Holds shapes I code notes m S) (line : Nat) :
    Holds shapes I code notes (m.noted line) S := by
  have hcounted : Holds shapes I code notes { m with executed := m.executed + 1 } S :=
    h.of_eq rfl rfl rfl rfl rfl
  exact hcounted.modifyFrame ⟨h.frame.locals, h.frame.temps⟩ (fun _ => rfl) (fun _ => rfl) rfl
    (fun _ ht => ht) rfl

/-! ### Operands -/

/-- The value of an operand is of its type. -/
theorem has_of_eval (h : Holds shapes I code notes m S) {o : Operand} {t : Ty}
    (ho : OperandHas I S o t) {v : Value} (hv : m.eval o = .ok v) : t.Has shapes v := by
  cases ho with
  | const => cases hv; exact Constant.has_toValue _
  | @temp u t hu =>
    obtain ⟨w, hw, hcw⟩ := h.frame.temps u _ hu
    have hread : m.eval (.place (.temp u)) = .ok w := by
      simp [Machine.eval, Machine.read, Machine.read?, hw]
    rw [hread] at hv
    cases hv
    exact hcw
  | @«local» slot t hl =>
    obtain ⟨w, hw, hcw⟩ := h.frame.locals slot _ hl
    have hread : m.eval (.place (.var ⟨slot, .local⟩)) = .ok w := by
      simp [Machine.eval, Machine.read, Machine.read?, hw]
    rw [hread] at hv
    cases hv
    exact hcw
  | @global slot t hg =>
    cases hw : m.globals.get? slot with
    | none => simp [Machine.eval, Machine.read, Machine.read?, hw] at hv
    | some w =>
      have hread : m.eval (.place (.var ⟨slot, .global⟩)) = .ok w := by
        simp [Machine.eval, Machine.read, Machine.read?, hw]
      rw [hread] at hv
      cases hv
      exact h.globals slot t _ hg hw
  | @returned t hr =>
    obtain ⟨w, hw, hcw⟩ := h.returned t hr
    have hread : m.eval .returned = .ok w := by simp [Machine.eval, hw]
    rw [hread] at hv
    cases hv
    exact hcw

/-- Only a global variable may hold no value. -/
theorem global_of_eval (h : Holds shapes I code notes m S) {o : Operand} {t : Ty}
    (ho : OperandHas I S o t) {f : Fault} (hf : m.eval o = .error f) :
    ∃ slot, o = .place (.var ⟨slot, .global⟩) ∧ m.globals.get? slot = none ∧
      f = .undefinedVariable (Place.var ⟨slot, .global⟩).text := by
  cases ho with
  | const => cases hf
  | @temp u t hu =>
    obtain ⟨w, hw, -⟩ := h.frame.temps u _ hu
    simp [Machine.eval, Machine.read, Machine.read?, hw] at hf
  | @«local» slot t hl =>
    obtain ⟨w, hw, -⟩ := h.frame.locals slot _ hl
    simp [Machine.eval, Machine.read, Machine.read?, hw] at hf
  | @global slot t hg =>
    refine ⟨slot, rfl, ?_⟩
    cases hw : m.globals.get? slot with
    | none =>
      refine ⟨rfl, ?_⟩
      simp only [Machine.eval, Machine.read, Machine.read?, hw, Except.error.injEq] at hf
      exact hf.symm
    | some w => simp [Machine.eval, Machine.read, Machine.read?, hw] at hf
  | @returned t hr =>
    obtain ⟨w, hw, -⟩ := h.returned t hr
    simp [Machine.eval, hw] at hf

/-! ### Writing -/

/-- A place gets a new content. -/
theorem write (h : Holds shapes I code notes m S) {d : Place} {c : Content} {v : Value}
    (hw : Writes I S d c S') (hv : c.Has shapes v) :
    Holds shapes I code notes (m.write d v) S' := by
  cases hw with
  | @temp u c =>
    refine h.modifyFrame (g := fun f => { f with temps := f.temps.set u v })
      ⟨h.frame.locals, fun u' d hd => ?_⟩ (fun _ => rfl) (fun _ => rfl) rfl (fun _ ht => ht) rfl
    change ∃ w, (m.frame.temps.set u v).get? u' = some w ∧ _
    rw [Store.get?_set]
    by_cases hu : u = u'
    · rw [if_pos hu]
      have hc : c = d := by simpa [Assertion.setTemp, hu] using hd
      exact ⟨v, rfl, hc ▸ hv⟩
    · rw [if_neg hu]
      have hold : S.temps u' = some d := by simpa [Assertion.setTemp, Ne.symm hu] using hd
      exact h.frame.temps u' d hold
  | @«local» slot t =>
    refine h.modifyFrame (g := fun f => { f with locals := f.locals.set slot v })
      ⟨fun slot' t' ht => ?_, h.frame.temps⟩ (fun _ => rfl) (fun _ => rfl) rfl (fun _ ht => ht) rfl
    change ∃ w, (m.frame.locals.set slot v).get? slot' = some w ∧ _
    rw [Store.get?_set]
    by_cases hs : slot = slot'
    · rw [if_pos hs]
      have hc : t = t' := by simpa [Assertion.setLocal, hs] using ht
      exact ⟨v, rfl, hc ▸ hv⟩
    · rw [if_neg hs]
      have hold : S.locals slot' = some t' := by simpa [Assertion.setLocal, hs] using ht
      exact h.frame.locals slot' t' hold
  | @global slot t hg =>
    refine ⟨fun slot' t' w ht hw => ?_, h.frame, h.returned, h.args⟩
    change (m.globals.set slot v).get? slot' = some w at hw
    rw [Store.get?_set] at hw
    by_cases hs : slot = slot'
    · rw [if_pos hs] at hw
      cases hw
      rw [← hs, hg] at ht
      cases ht
      exact hv
    · rw [if_neg hs] at hw
      exact h.globals slot' t' w ht hw

/-! ### Effects -/

theorem has_of_apply {op : BinaryOp} {left right t : Ty} {a b v : Value}
    (ht : binaryTy? op left right = some t) (ha : left.Has shapes a) (hb : right.Has shapes b)
    (hv : op.apply a b = .ok v) : t.Has shapes v := by
  unfold binaryTy? at ht
  split at ht
  · cases ht
    trivial
  · have hout := Outcome.apply ha hb ht
    rw [hv] at hout
    exact hout

theorem has_of_applyUnary {op : UnaryOp} {operand t : Ty} {a v : Value}
    (ht : unaryTy? op operand = some t) (ha : operand.Has shapes a)
    (hv : op.fn.apply a = .ok v) : t.Has shapes v := by
  unfold unaryTy? at ht
  split at ht
  · cases ht
    trivial
  · have hout := Outcome.applyUnary ha ht
    rw [hv] at hout
    exact hout

theorem isSome_of_evalIndex {col : Option Operand} {j : Option Int64}
    (h : m.evalIndex col = .ok j) : j.isSome = col.isSome := by
  cases col with
  | none => cases h; rfl
  | some o =>
    change some <$> m.evalInt o = .ok j at h
    cases hi : m.evalInt o with
    | error f => rw [hi] at h; cases h
    | ok i => rw [hi] at h; cases h; rfl

theorem has_of_loadIndex {container t : Ty} {base v : Value} {i : Int64} {j : Option Int64}
    (ht : elementTy? container j.isSome = some t) (hb : container.Has shapes base)
    (hv : base.loadIndex i j = .ok v) : t.Has shapes v := by
  by_cases hk : container = .unknown
  · subst hk
    cases ht
    trivial
  · have hout := Outcome.loadIndex (i := i) hb hk ht
    rw [hv] at hout
    exact hout

/-- Replacing an element by one of the element type keeps the type of a container that is no
matrix. -/
theorem has_of_storeIndex {container t : Ty} {base v w : Value} {i : Int64} {j : Option Int64}
    (ht : elementTy? container j.isSome = some t) (hm : container.isMatrix = false)
    (hb : container.Has shapes base) (hv : t.Has shapes v) (hw : base.storeIndex i j v = .ok w) :
    container.Has shapes w := by
  cases container with
  | unknown => trivial
  | array element =>
    cases j with
    | some j => cases ht
    | none =>
      cases ht
      have hout := Outcome.storeIndex_array (i := i) hb hv
      rw [hw] at hout
      exact hout
  | matrix shape => cases hm
  | _ => cases ht

theorem has_of_storeEntry {shape : Option (Nat × Nat)} {found : Ty} {base v w : Value}
    {i : Int64} {j : Option Int64} (hj : j.isSome = true)
    (hn : (found.isNumeric || found.isUnknown) = true) (hb : (Ty.matrix shape).Has shapes base)
    (hv : found.Has shapes v) (hw : base.storeIndex i j v = .ok w) :
    (Ty.matrix shape).Has shapes w := by
  obtain ⟨j, rfl⟩ := Option.isSome_iff_exists.1 hj
  have hout := Outcome.storeIndex_matrix (i := i) (j := j) hb hv hn
  rw [hw] at hout
  exact hout

/-- Filling an array goes on by one element.  Behind the largest index the machine does not get. -/
theorem has_of_fill {element : Ty} {len k : Nat} {base v w : Value}
    (hb : (Content.filling element len k).Has shapes base) (hv : element.Has shapes v)
    (hw : base.storeIndex (Int64.ofNat k) none v = .ok w) :
    (Content.filling element len (k + 1)).Has shapes w := by
  obtain ⟨items, rfl, hlen, hk, hitems⟩ := hb
  obtain ⟨i, hi, hw⟩ := bind_eq_ok.1 hw
  cases hw
  unfold checkedIndex at hi
  split at hi <;> cases hi
  rename_i hbounds
  have hlt : k < 2 ^ 63 := by
    by_contra hge
    have hmax : k = 2 ^ 63 := by omega
    rw [hmax] at hbounds
    have hneg : (Int64.ofNat (2 ^ 63)).toInt = -2 ^ 63 := by decide
    rw [hneg] at hbounds
    omega
  have hint : (Int64.ofNat k).toInt.toNat = k := by
    rw [Int64.toInt_ofNat_of_lt hlt, Int.toNat_natCast]
  rw [hint]
  refine ⟨_, rfl, by rw [List.length_set, hlen], hlt, fun i hi w hw => ?_⟩
  rw [List.getElem?_set] at hw
  split at hw
  · split at hw <;> cases hw
    exact hv
  · exact hitems i (by omega) w hw

theorem eval_indexConst (k : Nat) :
    m.evalInt (Lowering.indexConst k) = .ok (Int64.ofNat k) := rfl

/-- A temporary of which something is known holds a value. -/
theorem read_of_temps (h : Holds shapes I code notes m S) {u : Nat} {c : Content}
    (hu : S.temps u = some c) : ∃ v, m.read (.temp u) = .ok v := by
  obtain ⟨w, hw, -⟩ := h.frame.temps u c hu
  exact ⟨w, by simp [Machine.read, Machine.read?, hw]⟩

theorem content_of_read (h : Holds shapes I code notes m S) {u : Nat} {c : Content} {v : Value}
    (hu : S.temps u = some c) (hv : m.read (.temp u) = .ok v) : c.Has shapes v := by
  obtain ⟨w, hw, hc⟩ := h.frame.temps u c hu
  have hread : m.read (.temp u) = .ok w := by simp [Machine.read, Machine.read?, hw]
  rw [hread] at hv
  cases hv
  exact hc

/-- What an operation puts into a place is what its note says. -/
theorem exists_writes (h : Holds shapes I code notes m S) {op : Op} {n : Note}
    (hop : OpTyped shapes I S op n S') (hu : n.Upheld shapes m op) {d : Place} {v : Value}
    (he : m.effect op = some (d, .ok v)) : ∃ c, Writes I S d c S' ∧ c.Has shapes v ∧
      (op.dest? = some d → ∀ t, n.gives = some t → c = .value t) := by
  cases hop with
  | assign hc hw =>
    cases he
    exact ⟨_, hw, Ty.has_of_fits hc (Constant.has_toValue _), fun _ t ht => by cases ht; rfl⟩
  | copy ho hf hw =>
    obtain ⟨rfl, hv⟩ := Prod.mk.inj (Option.some.inj he)
    refine ⟨_, hw, ?_, fun _ t ht => by cases ht; rfl⟩
    exact hu.has rfl rfl rfl hf hv (h.has_of_eval ho hv)
  | binary hl hr ht hw =>
    obtain ⟨rfl, hv⟩ := Prod.mk.inj (Option.some.inj he)
    obtain ⟨a, ha, hv⟩ := bind_eq_ok.1 hv
    obtain ⟨b, hb, hv⟩ := bind_eq_ok.1 hv
    refine ⟨_, hw, ?_, fun _ t ht => by cases ht; rfl⟩
    exact has_of_apply ht (h.has_of_eval hl ha) (h.has_of_eval hr hb) hv
  | unary ho ht hw =>
    obtain ⟨rfl, hv⟩ := Prod.mk.inj (Option.some.inj he)
    obtain ⟨a, ha, hv⟩ := bind_eq_ok.1 hv
    refine ⟨_, hw, ?_, fun _ t ht => by cases ht; rfl⟩
    exact has_of_applyUnary ht (h.has_of_eval ho ha) hv
  | widen ho hw =>
    obtain ⟨rfl, hv⟩ := Prod.mk.inj (Option.some.inj he)
    obtain ⟨a, ha, hv⟩ := bind_eq_ok.1 hv
    refine ⟨_, hw, ?_, fun _ t ht => by cases ht; rfl⟩
    have hout := Outcome.applyToFloat (h.has_of_eval ho ha)
    rw [hv] at hout
    exact hout
  | @newArray u len element =>
    cases he
    refine ⟨_, .temp, ?_, fun _ t ht => by cases ht⟩
    exact ⟨_, rfl, List.length_replicate, Nat.zero_le _, fun i hi => absurd hi (Nat.not_lt_zero i)⟩
  | @newMatrix u rows cols =>
    cases he
    refine ⟨_, .temp, ?_, fun _ t ht => by cases ht; rfl⟩
    exact ⟨_, rfl, fun _ s hs => by cases hs; rfl⟩
  | load hb hi ht hw =>
    obtain ⟨rfl, hv⟩ := Prod.mk.inj (Option.some.inj he)
    obtain ⟨i, -, hv⟩ := bind_eq_ok.1 hv
    obtain ⟨j, hj, hv⟩ := bind_eq_ok.1 hv
    obtain ⟨base, hbase, hv⟩ := bind_eq_ok.1 hv
    refine ⟨_, hw, ?_, fun _ t ht => by cases ht; rfl⟩
    rw [← isSome_of_evalIndex hj] at ht
    exact has_of_loadIndex ht (h.has_of_eval hb hbase) hv
  | storeElement hb hi ht hm ho hf =>
    obtain ⟨rfl, hv⟩ := Prod.mk.inj (Option.some.inj he)
    obtain ⟨i, -, hv⟩ := bind_eq_ok.1 hv
    obtain ⟨j, hj, hv⟩ := bind_eq_ok.1 hv
    obtain ⟨w, hw, hv⟩ := bind_eq_ok.1 hv
    obtain ⟨base, hbase, hv⟩ := bind_eq_ok.1 hv
    refine ⟨_, writes_self hb, ?_, fun hd => by cases hd⟩
    rw [← isSome_of_evalIndex hj] at ht
    have hlast := hu.has rfl List.getLast?_concat rfl hf hw (h.has_of_eval ho hw)
    exact has_of_storeIndex ht hm (h.has_of_eval hb hbase) hlast hv
  | storeEntry hb hi ho hn =>
    obtain ⟨rfl, hv⟩ := Prod.mk.inj (Option.some.inj he)
    obtain ⟨i, -, hv⟩ := bind_eq_ok.1 hv
    obtain ⟨j, hj, hv⟩ := bind_eq_ok.1 hv
    obtain ⟨w, hw, hv⟩ := bind_eq_ok.1 hv
    obtain ⟨base, hbase, hv⟩ := bind_eq_ok.1 hv
    refine ⟨_, writes_self hb, ?_, fun hd => by cases hd⟩
    exact has_of_storeEntry (isSome_of_evalIndex hj) hn (h.has_of_eval hb hbase)
      (h.has_of_eval ho hw) hv
  | @fill u len k o element found htemp ho hf =>
    obtain ⟨rfl, hv⟩ := Prod.mk.inj (Option.some.inj he)
    obtain ⟨i, hi, hv⟩ := bind_eq_ok.1 hv
    obtain ⟨j, hj, hv⟩ := bind_eq_ok.1 hv
    obtain ⟨w, hw, hv⟩ := bind_eq_ok.1 hv
    obtain ⟨base, hbase, hv⟩ := bind_eq_ok.1 hv
    rw [eval_indexConst] at hi
    cases hi
    cases hj
    refine ⟨_, .temp, ?_, fun hd => by cases hd⟩
    have hlast := hu.has rfl rfl rfl hf hw (h.has_of_eval ho hw)
    exact has_of_fill (h.content_of_read htemp hbase) hlast hv
  | @entry u r c o shape found htemp ho hn =>
    obtain ⟨rfl, hv⟩ := Prod.mk.inj (Option.some.inj he)
    obtain ⟨i, -, hv⟩ := bind_eq_ok.1 hv
    obtain ⟨j, hj, hv⟩ := bind_eq_ok.1 hv
    obtain ⟨w, hw, hv⟩ := bind_eq_ok.1 hv
    obtain ⟨base, hbase, hv⟩ := bind_eq_ok.1 hv
    have hwrites := @Writes.temp I S u (.value (.matrix shape))
    rw [Assertion.setTemp_of_temps htemp] at hwrites
    refine ⟨_, hwrites, ?_, fun hd => by cases hd⟩
    exact has_of_storeEntry (isSome_of_evalIndex hj) hn (h.content_of_read htemp hbase)
      (h.has_of_eval ho hw) hv
  | _ => cases he

theorem of_effect (h : Holds shapes I code notes m S) {op : Op} {n : Note}
    (hop : OpTyped shapes I S op n S') (hu : n.Upheld shapes m op) {d : Place} {v : Value}
    (he : m.effect op = some (d, .ok v)) : Holds shapes I code notes (m.write d v) S' := by
  obtain ⟨c, hw, hc, -⟩ := h.exists_writes hop hu he
  exact h.write hw hc

/-! ### Steps -/

/-- What holds behind a jump. -/
theorem of_position (hfits : I.Fits shapes code notes image) {l : Label} {k : Nat}
    (h : Holds shapes I code notes m S) (hl : I.labels l = some T) (hS : S.Entails shapes T)
    (hk : image.position l = .ok k) :
    ∃ S', At shapes I code notes k S' ∧ Holds shapes I code notes { m with pc := k } S' := by
  obtain ⟨U, hU, hat⟩ := hfits.labels l k hk
  rw [hl] at hU
  cases hU
  exact ⟨T, hat, (h.of_entails hS).of_eq rfl rfl rfl rfl rfl⟩

/-- The arguments of a call, and those passed before them. -/
theorem args_of_call (h : Holds shapes I code notes m S) {ts before : List Ty}
    (hargs : S.args = ts.reverse ++ before) :
    List.Forall₂ (Ty.Has shapes) ts (m.args.take ts.length).reverse ∧
    ∃ own rest, m.args.drop ts.length = own ++ rest ∧ List.Forall₂ (Ty.Has shapes) before own ∧
      Suspended shapes I code notes S.returns m.calls m.main rest := by
  obtain ⟨own, rest, hm, hown, hcalls⟩ := h.args
  rw [hargs] at hown
  have hlen : ts.length ≤ own.length := by
    rw [← hown.length_eq, List.length_append, List.length_reverse]
    omega
  have hpassed := List.forall₂_take ts.length hown
  have hbefore := List.forall₂_drop ts.length hown
  rw [List.take_left' List.length_reverse] at hpassed
  rw [List.drop_left' List.length_reverse] at hbefore
  rw [hm, List.take_append_of_le_length hlen, List.drop_append_of_le_length hlen]
  refine ⟨?_, _, rest, rfl, hbefore, hcalls⟩
  have hreverse := List.forall₂_reverse_iff.2 hpassed
  rwa [List.reverse_reverse] at hreverse

/-- The machine keeps to what is known along the code. -/
theorem of_goes (hfits : I.Fits shapes code notes image) {op : Op} {n : Note}
    (h : Holds shapes I code notes m S) (hop : OpTyped shapes I S op n S')
    (hnext : At shapes I code notes (m.pc + 1) S') (hu : n.Upheld shapes m op)
    (hgo : Goes image m op m') :
    ∃ S'', At shapes I code notes m'.pc S'' ∧ Holds shapes I code notes m' S'' := by
  cases hgo with
  | @write _ d v he =>
    refine ⟨S', ?_, (h.of_effect hop hu he).next⟩
    change At shapes I code notes ((m.write d v).pc + 1) S'
    rw [Machine.pc_write]
    exact hnext
  | label =>
    cases hop with
    | label hl hS => exact ⟨S', hnext, (h.of_entails hS).next⟩
  | jump hk =>
    cases hop with
    | jump hl hS => exact h.of_position hfits hl hS hk
  | pass =>
    cases hop with
    | jumpIfFalse => exact ⟨S, hnext, h.next⟩
  | branch _ hk =>
    cases hop with
    | jumpIfFalse ho ht hl hS => exact h.of_position hfits hl hS hk
  | @param o v hv =>
    cases hop with
    | param ho hf =>
      have hv := hu.has rfl rfl rfl hf hv (h.has_of_eval ho hv)
      obtain ⟨own, rest, hm, hown, hcalls⟩ := h.args
      refine ⟨_, hnext, h.globals, ⟨h.frame.locals, h.frame.temps⟩, h.returned, v :: own, rest, ?_,
        .cons hv hown, hcalls⟩
      change v :: m.args = v :: own ++ rest
      rw [hm]
      rfl
  | builtin hlen hv =>
    cases hop with
    | builtin ha hargs =>
      obtain ⟨-, hrest⟩ := h.args_of_call hargs
      refine ⟨_, hnext, h.globals, ⟨h.frame.locals, h.frame.temps⟩, fun t ht => ?_, hrest⟩
      cases ht
      exact ⟨_, rfl, Builtin.has_of_call hv⟩
  | @user f argc k info hlen hinfo harity hdepth hk =>
    cases hop with
    | @user _ params before returns hf hargs =>
      obtain ⟨hpassed, own, rest, hm, hown, hcalls⟩ := h.args_of_call hargs
      obtain ⟨info', hinfo', -, hvalue, -, hentry⟩ := hfits.callees f params returns hf
      rw [hinfo] at hinfo'
      cases hinfo'
      obtain ⟨T, hT, hat⟩ := hfits.labels info.label k hk
      obtain ⟨hTargs, hTret, hTreturns, hTframe⟩ := hentry T hT
      refine ⟨T, hat, h.globals, hTframe _ _ hpassed, fun t ht => ?_, [], _, rfl, ?_, ?_⟩
      · rw [hTret] at ht
        cases ht
      · rw [hTargs]
        exact .nil
      · rw [hTreturns]
        change Suspended shapes I code notes returns _ m.main (m.args.drop params.length)
        rw [hm]
        refine .call hnext (fun t ht => ?_) ?_ hown hcalls
        · dsimp only at ht
          split at ht <;> cases ht
          rename_i hvoid
          exact ⟨rfl, by rw [Machine.callFrame, hvalue, decide_eq_true hvoid]⟩
        · exact ⟨h.frame.locals, h.frame.temps⟩
  | @leave o v f fs ho hc hsome =>
    have hgives : S.args = [] ∧ (v.isSome = true → ∃ w, v = some w ∧ S.returns.Has shapes w) := by
      cases hop with
      | leave hargs =>
        cases ho
        exact ⟨hargs, fun hv => by cases hv⟩
      | @«return» o found _ ho' hf hargs =>
        refine ⟨hargs, fun _ => ?_⟩
        cases hv : m.eval o with
        | error e =>
          rw [Machine.givesBack, hv] at ho
          cases ho
        | ok w =>
          rw [Machine.givesBack, hv] at ho
          cases ho
          exact ⟨w, rfl, hu.has rfl rfl rfl hf hv (h.has_of_eval ho' hv)⟩
    obtain ⟨own, rest, hm, hown, hcalls⟩ := h.args
    rw [hgives.1] at hown
    cases hown
    rw [hc] at hcalls
    cases hcalls with
    | @call _ _ _ _ own rest S₀ hat hret hframe hown hrest =>
      refine ⟨S₀, hat, h.globals, hframe, fun t ht => ?_, own, rest, hm, hown, hrest⟩
      obtain ⟨rfl, hvalue⟩ := hret t ht
      exact hgives.2 (hsome hvalue)
  | print hv =>
    cases hop with
    | print ho => exact ⟨S, hnext, h.of_eq rfl rfl rfl rfl rfl⟩

/-- A line of input is a value of the type that is asked for. -/
theorem of_input {op : Op} {n : Note} (h : Holds shapes I code notes m S)
    (hop : OpTyped shapes I S op n S') (hnext : At shapes I code notes (m.pc + 1) S') {d : Place}
    {t : Ty} (hd : op = .input d t) {line : String} {v : Value}
    (hv : Value.ofInput line t = .ok v) :
    ∃ S'', At shapes I code notes (m.write d v).next.pc S'' ∧
      Holds shapes I code notes (m.write d v).next S'' := by
  subst hd
  cases hop with
  | input hw =>
    refine ⟨S', ?_, (h.write hw (Value.has_of_ofInput hv)).next⟩
    change At shapes I code notes ((m.write d v).pc + 1) S'
    rw [Machine.pc_write]
    exact hnext

end Holds

end

end Typing

end NumericScript
