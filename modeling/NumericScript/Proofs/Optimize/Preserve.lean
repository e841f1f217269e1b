import NumericScript.Optimize
import NumericScript.Proofs.Rearrange

/-! # What every pass of the optimizer keeps

A pass may rely on how lowering uses temporaries, and has to leave code that uses them in the
same way.  And a pass may rely on runs that meet nothing for which the optimizer is wrong: an
operation on values for which its cheaper form gives something else, or a variable without a
value where an operation may be dropped that would have noticed.

* `Tidy`: how code uses temporaries.
* `Op.Trusty`: what a run does not meet.
* `Preserves`: code that runs as the code before. -/

namespace NumericScript

/-! ### Values and variables -/

/-- Whether a value is a number. -/
def Value.isNumber : Value → Bool
  | .int _ | .float _ => true
  | _ => false

/-- Whether the cheaper forms of a product give the same. -/
structure ProductRobust (v w : Value) : Prop where
  one_right : w = .int 1 → BinaryOp.mul.apply v w = .ok v
  one_left : v = .int 1 → BinaryOp.mul.apply v w = .ok w
  two_right : w = .int 2 → BinaryOp.mul.apply v w = BinaryOp.add.apply v v
  two_left : v = .int 2 → BinaryOp.mul.apply v w = BinaryOp.add.apply w w

/-- Whether the cheaper forms of a quotient give the same. -/
structure QuotientRobust (v w : Value) : Prop where
  one : w = .int 1 → BinaryOp.div.apply v w = .ok v
  power : ∀ x k, w = .float x → reciprocalPower? x = some k →
    BinaryOp.div.apply v w = BinaryOp.mul.apply v (.float k) ∧ ProductRobust v (.float k)

/-- Whether the cheaper forms of an operation give the same on two values. -/
def BinaryOp.Robust : BinaryOp → Value → Value → Prop
  | .mul, v, w => ProductRobust v w
  | .div, v, w => QuotientRobust v w
  | .pow, v, w => w = .int 2 → v.isNumber → BinaryOp.pow.apply v w = BinaryOp.mul.apply v v
  | _, _, _ => True

/-- Whether an operand is no variable without a value. -/
def Machine.HasValue (m : Machine) (o : Operand) : Prop :=
  ∀ x, o = .place (.var x) → (m.read? (.var x)).isSome

/-- Whether an operation has a value wherever it may be replaced by a copy. -/
structure Machine.Guarded (m : Machine) (op : BinaryOp) (l r : Operand) : Prop where
  left : op = .mul ∨ op = .div → m.eval r = .ok (.int 1) → m.HasValue l
  right : op = .mul → m.eval l = .ok (.int 1) → m.HasValue r

/-- What the optimizer relies on when an operation is executed: the cheaper forms of an
operator give the same, a variable that is multiplied or divided by one has a value, and so has
one that is copied to itself, or to a temporary that is not among those in `held`. -/
def Op.Trusty (held : Nat → Prop) (m : Machine) : Op → Prop
  | .copy d s => m.HasValue s ∨ s ≠ .place d ∧ ∀ t, d = .temp t → held t
  | .binary _ op l r =>
    (∀ v w, m.eval l = .ok v → m.eval r = .ok w → op.Robust v w) ∧ m.Guarded op l r
  | _ => True

/-- The optimizer may rely on the operation at hand. -/
def TrustyAt (held : Nat → Prop) (code : List Instr) (p : Point) : Prop :=
  ∀ i, code[p.machine.pc]? = some i → i.op.Trusty held p.machine

/-! ### Temporaries -/

/-- Whether control goes on to the next instruction and nowhere else. -/
def Op.isStraight (op : Op) : Bool := op.target?.isNone && !op.endsBlock

/-- Whether an operation prints. -/
def Op.isPrint : Op → Bool
  | .print _ _ => true
  | _ => false

/-- Whether an operation can stand in the middle of straight code that prints nothing itself. -/
def Op.isInline (op : Op) : Bool := op.isStraight && op.label?.isNone && !op.isPrint

theorem Op.isInline_iff {op : Op} :
    op.isInline = true ↔ op.isStraight = true ∧ op.label? = none ∧ op.isPrint = false := by
  simp [isInline, and_assoc]

/-- The temporary that an operation writes which nobody would miss unless it is read. -/
def Op.owes : Op → Option Nat
  | .copy (.temp t) _ | .unary (.temp t) _ _ => some t
  | .binary (.temp t) op _ _ => if op = .add then none else some t
  | _ => none

theorem Op.tempWritten?_of_owes {op : Op} {t : Nat} (h : op.owes = some t) :
    op.tempWritten? = some t := by
  cases op with
  | copy d s => cases d <;> cases h; rfl
  | unary d f o => cases d <;> cases h; rfl
  | binary d f l r =>
    cases d with
    | temp t' =>
      rw [owes] at h
      split at h
      · cases h
      · cases h
        rfl
    | var v => cases h
  | _ => cases h

/-- Whether a temporary is read before it is written again and before control moves. -/
def Paid (t : Nat) : List Instr → Prop
  | [] => False
  | i :: is =>
    t ∈ i.op.tempsRead ∨ i.op.tempWritten? ≠ some t ∧ i.op.isStraight = true ∧ Paid t is

/-- Whether every temporary that needs to be read is read. -/
def Thrifty : List Instr → Prop
  | [] => True
  | i :: is => (∀ t, i.op.owes = some t → Paid t is) ∧ Thrifty is

/-- Whether an operation on operands can never be found to be one on constants. -/
def Op.Moves (moving : Nat → Prop) : Op → Prop
  | .assign _ _ => False
  | .copy _ s => s = .returned ∨ ∃ t, s = .place (.temp t) ∧ moving t
  | .unary _ _ o => ∃ t, o = .place (.temp t) ∧ moving t
  | .binary _ _ l r => ∃ t, (l = .place (.temp t) ∨ r = .place (.temp t)) ∧ moving t
  | _ => True

/-- Whether an operator has cheaper forms. -/
def BinaryOp.isReducible : BinaryOp → Bool
  | .mul | .div | .pow => true
  | _ => false

/-- How an operation uses temporaries.  Those in `held` hold the value of a variable over a
call; they are not copied, and whatever they are multiplied with is never a constant.  The
values of those in `moving` are never found to be constant. -/
structure Op.Steady (held moving : Nat → Prop) (op : Op) : Prop where
  fresh : ∀ t, op.owes = some t → t ∉ op.tempsRead
  copied : ∀ d t, op = .copy d (.place (.temp t)) → ¬ held t
  factor : ∀ d f l r, op = .binary d f l r → f.isReducible = true →
    (∀ t, l = .place (.temp t) → held t → ∃ u, r = .place (.temp u) ∧ moving u) ∧
    ∀ t, r = .place (.temp t) → held t → ∃ u, l = .place (.temp u) ∧ moving u
  moves : ∀ t, op.tempWritten? = some t → moving t → op.Moves moving
  input : ∀ t ty, op ≠ .input (.temp t) ty

/-- A jump uses no temporary. -/
theorem Op.steady_jump (held moving : Nat → Prop) (l : Label) :
    (Op.jump l).Steady held moving where
  fresh := fun t h => by cases h
  copied := fun d t h => by cases h
  factor := fun d f l r h => by cases h
  moves := fun t h => by cases h
  input := fun t ty h => by cases h

/-- How code uses temporaries. -/
structure Tidy (held moving : Nat → Prop) (code : List Instr) : Prop where
  thrifty : Thrifty code
  steady : ∀ i ∈ code, i.op.Steady held moving

/-- What may become of an instruction such that temporaries stay paid. -/
def KeepsPaid (i : Instr) : Option Instr → Prop
  | some i' => (∀ t, i'.op.owes = some t → i.op.owes = some t) ∧
      (∀ t ∈ i.op.tempsRead, t ∈ i'.op.tempsRead) ∧
      i'.op.tempWritten? = i.op.tempWritten? ∧ (i.op.isStraight = true → i'.op.isStraight = true)
  | none => i.op.tempsRead = []

theorem KeepsPaid.refl (i : Instr) : KeepsPaid i (some i) :=
  ⟨fun _ => id, fun _ => id, rfl, id⟩

theorem Paid.of_keepsPaid {code : List Instr} {kept : List (Option Instr)} {t : Nat}
    (h : Paid t code) (hk : List.Forall₂ KeepsPaid code kept) : Paid t kept.reduceOption := by
  induction hk with
  | nil => exact h
  | @cons i o code kept hi _ ih =>
    cases o with
    | none =>
      rcases h with h | ⟨-, -, h⟩
      · rw [show i.op.tempsRead = [] from hi] at h
        cases h
      · exact ih h
    | some i' =>
      rcases h with h | ⟨hw, hs, h⟩
      · exact .inl (hi.2.1 t h)
      · exact .inr ⟨by rw [hi.2.2.1]; exact hw, hi.2.2.2 hs, ih h⟩

theorem Thrifty.of_keepsPaid {code : List Instr} {kept : List (Option Instr)}
    (h : Thrifty code) (hk : List.Forall₂ KeepsPaid code kept) : Thrifty kept.reduceOption := by
  induction hk with
  | nil => exact trivial
  | @cons i o code kept hi hrest ih =>
    cases o with
    | none => exact ih h.2
    | some i' => exact ⟨fun t ht => (h.1 t (hi.1 t ht)).of_keepsPaid hrest, ih h.2⟩

theorem Paid.mem_tempsRead {code : List Instr} {t : Nat} (h : Paid t code) :
    t ∈ tempsRead code := by
  induction code with
  | nil => exact h.elim
  | cons i is ih =>
    rw [NumericScript.tempsRead, List.flatMap_cons]
    rcases h with h | ⟨-, -, h⟩
    · exact List.mem_append_left _ h
    · exact List.mem_append_right _ (ih h)

/-- What an instruction of tidy code owes is read. -/
theorem Thrifty.mem_tempsRead {code : List Instr} (h : Thrifty code) {i : Instr} (hi : i ∈ code)
    {t : Nat} (ht : i.op.owes = some t) : t ∈ tempsRead code := by
  induction code with
  | nil => cases hi
  | cons j is ih =>
    rw [NumericScript.tempsRead, List.flatMap_cons]
    refine List.mem_append_right _ ?_
    rcases List.mem_cons.1 hi with rfl | hi
    · exact (h.1 t ht).mem_tempsRead
    · exact ih h.2 hi

/-! ### Passes -/

section

variable (functions : List FunctionInfo) (settings : MachineSettings) (held moving : Nat → Prop)

/-- Code that is linked and tidy as the code before, and that runs like it wherever the
optimizer may rely on the run. -/
structure Preserves (code code' : List Instr) : Prop where
  linked : Linked functions code → Linked functions code'
  tidy : Tidy held moving code → Tidy held moving code'
  runs : Linked functions code → Tidy held moving code → ∀ lines,
    Image.Always (Code.link ⟨code, functions⟩ settings) (TrustyAt held code)
      ((Code.link ⟨code, functions⟩ settings).startPoint lines) →
    Image.Always (Code.link ⟨code', functions⟩ settings) (TrustyAt held code')
      ((Code.link ⟨code', functions⟩ settings).startPoint lines) ∧
    ∀ o, (Code.link ⟨code, functions⟩ settings).Halts
        ((Code.link ⟨code, functions⟩ settings).startPoint lines) o ↔
      (Code.link ⟨code', functions⟩ settings).Halts
        ((Code.link ⟨code', functions⟩ settings).startPoint lines) o

end

namespace Preserves

variable {functions : List FunctionInfo} {settings : MachineSettings} {held moving : Nat → Prop}
  {code code' code'' : List Instr}

theorem refl (code : List Instr) : Preserves functions settings held moving code code :=
  ⟨id, id, fun _ _ _ h => ⟨h, fun _ => Iff.rfl⟩⟩

theorem trans (h : Preserves functions settings held moving code code')
    (h' : Preserves functions settings held moving code' code'') :
    Preserves functions settings held moving code code'' where
  linked := h'.linked ∘ h.linked
  tidy := h'.tidy ∘ h.tidy
  runs := by
    intro hl ht lines hP
    obtain ⟨hP', hiff⟩ := h.runs hl ht lines hP
    obtain ⟨hP'', hiff'⟩ := h'.runs (h.linked hl) (h.tidy ht) lines hP'
    exact ⟨hP'', fun o => (hiff o).trans (hiff' o)⟩

end Preserves

/-! ### Rearranged code -/

section

variable {functions : List FunctionInfo} {settings : MachineSettings} {held moving : Nat → Prop}
  {code : List Instr} {kept : List (Option Instr)}

/-- Code with the same labels of which jumps go to none but those is linked as before. -/
theorem Linked.of_labelsIn_eq {code' : List Instr} (h : Linked functions code)
    (hl : labelsIn code' = labelsIn code)
    (ht : ∀ i' ∈ code', ∀ l, i'.op.target? = some l → ∃ i ∈ code, i.op.target? = some l) :
    Linked functions code' where
  distinct := hl ▸ h.distinct
  targets := by
    intro i' hi' l hl'
    obtain ⟨i, hi, hil⟩ := ht i' hi' l hl'
    exact hl ▸ h.targets i hi l hil
  entries := fun f hf => hl ▸ h.entries f hf

/-- What becomes of an instruction such that labels stay and no jump is new. -/
def KeepsJumps (i : Instr) : Option Instr → Prop
  | some i' => i'.line = i.line ∧ i'.op.label? = i.op.label? ∧
      ∀ l, i'.op.target? = some l → i.op.target? = some l
  | none => i.op.label? = none

theorem KeepsJumps.keeps {i : Instr} {o : Option Instr} (h : KeepsJumps i o) : Keeps i o := by
  cases o with
  | none => exact trivial
  | some i' => exact ⟨h.1, h.2.1⟩

theorem labelsIn_of_keepsJumps (h : List.Forall₂ KeepsJumps code kept) :
    labelsIn kept.reduceOption = labelsIn code := by
  induction h with
  | nil => rfl
  | @cons i o code kept hi _ ih =>
    cases o with
    | none =>
      rw [List.reduceOption_cons_of_none, ih, labelsIn, labelsIn, List.filterMap_cons,
        show i.op.label? = none from hi]
    | some i' =>
      rw [List.reduceOption_cons_of_some, labelsIn, labelsIn, List.filterMap_cons,
        List.filterMap_cons, hi.2.1]
      cases i.op.label? with
      | none => exact ih
      | some l => exact congrArg (l :: ·) ih

theorem exists_of_mem_reduceOption {R : Instr → Option Instr → Prop}
    (h : List.Forall₂ R code kept) {i' : Instr} (hi' : i' ∈ kept.reduceOption) :
    ∃ i ∈ code, R i (some i') := by
  obtain ⟨k, hk⟩ := List.mem_iff_getElem?.1 (List.reduceOption_mem_iff.1 hi')
  obtain ⟨hlt, he⟩ := List.getElem?_eq_some_iff.1 hk
  have hlt' : k < code.length := by rw [h.length_eq]; exact hlt
  refine ⟨code[k], List.getElem_mem hlt', ?_⟩
  have hR := h.get hlt' hlt
  simp only [List.get_eq_getElem, he] at hR
  exact hR

/-- Labels that stay and jumps that are not new keep code linked. -/
theorem Linked.of_keepsJumps (h : Linked functions code)
    (hk : List.Forall₂ KeepsJumps code kept) : Linked functions kept.reduceOption := by
  refine h.of_labelsIn_eq (labelsIn_of_keepsJumps hk) fun i' hi' l hl => ?_
  obtain ⟨i, hi, hR⟩ := exists_of_mem_reduceOption hk hi'
  exact ⟨i, hi, hR.2.2 l hl⟩

theorem Rearranged.of_keepsJumps (h : Linked functions code)
    (hk : List.Forall₂ KeepsJumps code kept) : Rearranged functions code kept :=
  ⟨h, hk.imp fun _ _ => KeepsJumps.keeps, h.of_keepsJumps hk⟩

/-- Instructions with a property stay, and the others go. -/
def keepIf (p : Instr → Bool) (code : List Instr) : List (Option Instr) :=
  code.map fun i => if p i then some i else none

theorem reduceOption_keepIf (p : Instr → Bool) (code : List Instr) :
    (keepIf p code).reduceOption = code.filter p := by
  induction code with
  | nil => rfl
  | cons i is ih =>
    rw [keepIf, List.map_cons, List.filter_cons]
    split
    · exact congrArg (i :: ·) ih
    · exact ih

theorem forall₂_keepIf {R : Instr → Option Instr → Prop} {p : Instr → Bool}
    (h : ∀ i ∈ code, R i (if p i then some i else none)) :
    List.Forall₂ R code (keepIf p code) := by
  rw [keepIf, List.forall₂_map_right_iff, List.forall₂_same]
  exact h

theorem keepIf_eq_some {p : Instr → Bool} {k : Nat} {i i' : Instr} (hi : code[k]? = some i)
    (h : (keepIf p code)[k]? = some (some i')) : i' = i ∧ p i = true := by
  rw [keepIf, List.getElem?_map, hi, Option.map_some] at h
  split at h
  · cases h
    exact ⟨rfl, by assumption⟩
  · cases h

theorem keepIf_eq_none {p : Instr → Bool} {k : Nat} {i : Instr} (hi : code[k]? = some i)
    (h : (keepIf p code)[k]? = some none) : p i = false := by
  rw [keepIf, List.getElem?_map, hi, Option.map_some] at h
  split at h
  · cases h
  · simpa using ‹¬ p i = true›

/-- Machines that are alike are trusted alike. -/
theorem Op.Trusty.of_alike {place : Nat → Nat} {dead : Nat → Prop} {a b : Machine} {op : Op}
    (h : op.Trusty held a) (hab : Machine.Alike place dead a b)
    (hread : ∀ t ∈ op.tempsRead, ¬ dead t) : op.Trusty held b := by
  have ho : ∀ o ∈ op.operands, b.eval o = a.eval o := fun o ho =>
    hab.eval fun t ht => hread t (Machine.Alike.mem_tempsRead ho ht)
  have hv : ∀ o, a.HasValue o → b.HasValue o := by
    intro o ha x hx
    have hx' : b.read? (.var x) = a.read? (.var x) := hab.read? fun t ht => by cases ht
    rw [hx']
    exact ha x hx
  cases op with
  | copy d s =>
    rcases h with h | h
    · exact .inl (hv s h)
    · exact .inr h
  | binary d op l r =>
    have hl := ho l (by simp [Op.operands])
    have hr := ho r (by simp [Op.operands])
    refine ⟨fun v w hvl hvr => h.1 v w (hl ▸ hvl) (hr ▸ hvr), fun hop he => ?_, fun hop he => ?_⟩
    · exact hv l (h.2.left hop (hr ▸ he))
    · exact hv r (h.2.right hop (hl ▸ he))
  | _ => exact trivial

theorem Machine.together_start {dead : Nat → Prop} (line line' : Nat) (angle : AngleMode) :
    Machine.Together (shift kept) dead (.start line angle) (.start line' angle) :=
  ⟨⟨rfl, ⟨rfl, rfl, fun _ _ => rfl, (shift_zero kept).symm, rfl⟩, .nil, rfl, rfl, rfl, rfl⟩,
    (shift_zero kept).symm⟩

/-- Something holds of the operation at hand. -/
def OpAt (T : Machine → Op → Prop) (code : List Instr) (p : Point) : Prop :=
  ∀ i, code[p.machine.pc]? = some i → T p.machine i.op

/-- Code runs as before if what stays acts as before and what goes does nothing but to go on,
perhaps past labels, and to write temporaries that are not read.  This may rely on an invariant of
runs, and on something that holds of every operation at hand and does not depend on temporaries that
are not read. -/
theorem Rearranged.runs (h : Rearranged functions code kept) (hs : settings.maxSteps = none)
    (dead : Nat → Prop) (I : Machine → Prop) (T : Machine → Op → Prop)
    (hlabel : ∀ m (op : Op), op.label?.isSome → T m op)
    (halike : ∀ place a b op, Machine.Alike place dead a b → (∀ t ∈ op.tempsRead, ¬ dead t) →
      T a op → T b op)
    (hstart : ∀ line angle, I (.start line angle))
    (hstep : ∀ p q, I p.machine →
      (Code.link ⟨code, functions⟩ settings).advance p = .next q → I q.machine)
    (hread : ∀ i ∈ kept.reduceOption, ∀ t ∈ i.op.tempsRead, ¬ dead t)
    (hkeep : ∀ (m : Machine) i i', I m → T m i.op → code[m.pc]? = some i →
      kept[m.pc]? = some (some i') →
      (i.op.label? = none →
        (m.noted i.line).execute (Code.link ⟨code, functions⟩ settings) i.op =
          (m.noted i.line).execute (Code.link ⟨code, functions⟩ settings) i'.op) ∧ T m i'.op)
    (hdrop : ∀ p i, I p.machine → T p.machine i.op → code[p.machine.pc]? = some i →
      kept[p.machine.pc]? = some none →
      ∃ m, (Code.link ⟨code, functions⟩ settings).advance p = .next ⟨m, p.unread⟩ ∧
        p.machine.pc < m.pc ∧
        (∀ j, p.machine.pc < j → j < m.pc →
          ∃ i', code[j]? = some i' ∧ i'.op.label?.isSome) ∧
        ∀ b, Machine.Alike (shift kept) dead p.machine b →
          Machine.Alike (shift kept) dead m b)
    {lines : List String}
    (hP : Image.Always (Code.link ⟨code, functions⟩ settings) (OpAt T code)
      ((Code.link ⟨code, functions⟩ settings).startPoint lines)) :
    Image.Always (Code.link ⟨kept.reduceOption, functions⟩ settings) (OpAt T kept.reduceOption)
        ((Code.link ⟨kept.reduceOption, functions⟩ settings).startPoint lines) ∧
      ∀ o, (Code.link ⟨code, functions⟩ settings).Halts
          ((Code.link ⟨code, functions⟩ settings).startPoint lines) o ↔
        (Code.link ⟨kept.reduceOption, functions⟩ settings).Halts
          ((Code.link ⟨kept.reduceOption, functions⟩ settings).startPoint lines) o := by
  have hI : (Code.link ⟨code, functions⟩ settings).Always (fun p => I p.machine)
      ((Code.link ⟨code, functions⟩ settings).startPoint lines) :=
    Image.always_of_step (hstart _ _) hP fun p q hI _ => hstep p q hI
  have hboth := hP.and hI
  have hsim := h.simulates dead (P := fun p => OpAt T code p ∧ I p.machine)
    (Q := OpAt T kept.reduceOption) hs
    (fun p i i' hp hi hi' => by
      refine ⟨(hkeep _ i i' hp.2 (hp.1 i hi) hi hi').1, hread i' ?_⟩
      exact List.reduceOption_mem_iff.2 (List.mem_of_getElem? hi'))
    (fun p i hp hi hi' => hdrop p i hp.2 (hp.1 i hi) hi hi')
    (fun b i hi hlab j hj => by
      rw [hi] at hj
      cases hj
      exact hlabel _ _ hlab)
    (fun p b hp hb hk i hi => by
      cases hc : code[p.machine.pc]? with
      | none =>
        have hlen : kept.length ≤ p.machine.pc := by
          rw [← h.keeps.length_eq]
          exact List.getElem?_eq_none_iff.1 hc
        rw [hb.2, shift_of_length_le hlen, List.getElem?_eq_none_iff.2 (Nat.le_refl _)] at hi
        cases hi
      | some i₀ =>
        obtain ⟨o, ho, -⟩ := h.exists_kept hc
        cases o with
        | none => exact absurd ho hk
        | some i' =>
          rw [hb.2, getElem?_shift ho] at hi
          cases hi
          refine halike _ _ _ _ hb.1 (hread i ?_) (hkeep _ i₀ i hp.2 (hp.1 i₀ hc) hc ho).2
          exact List.reduceOption_mem_iff.2 (List.mem_of_getElem? ho))
  have hR : Rearranged.Behind kept dead
      ((Code.link ⟨code, functions⟩ settings).startPoint lines)
      ((Code.link ⟨kept.reduceOption, functions⟩ settings).startPoint lines) :=
    .of_together (Machine.together_start _ _ _)
  exact ⟨hsim.always hR hboth, fun o => hsim.halts_iff hR hboth⟩

/-- A pass preserves code if what stays acts as before and what goes is not missed.  It may rely on
an invariant of runs. -/
theorem Preserves.of_rearranged (hs : settings.maxSteps = none)
    (hlinked : Linked functions code → Rearranged functions code kept)
    (htidy : Tidy held moving code → Tidy held moving kept.reduceOption)
    (dead : Nat → Prop) (I : Machine → Prop)
    (hstart : ∀ line angle, I (.start line angle))
    (hstep : Linked functions code → Tidy held moving code → ∀ p q, I p.machine →
      (Code.link ⟨code, functions⟩ settings).advance p = .next q → I q.machine)
    (hread : ∀ i ∈ kept.reduceOption, ∀ t ∈ i.op.tempsRead, ¬ dead t)
    (hkeep : Linked functions code → Tidy held moving code → ∀ (m : Machine) i i', I m →
      i.op.Trusty held m → code[m.pc]? = some i → kept[m.pc]? = some (some i') →
      (i.op.label? = none →
        (m.noted i.line).execute (Code.link ⟨code, functions⟩ settings) i.op =
          (m.noted i.line).execute (Code.link ⟨code, functions⟩ settings) i'.op) ∧
      i'.op.Trusty held m)
    (hdrop : Linked functions code → Tidy held moving code → ∀ p i, I p.machine →
      i.op.Trusty held p.machine → code[p.machine.pc]? = some i →
      kept[p.machine.pc]? = some none →
      ∃ m, (Code.link ⟨code, functions⟩ settings).advance p = .next ⟨m, p.unread⟩ ∧
        p.machine.pc < m.pc ∧
        (∀ j, p.machine.pc < j → j < m.pc →
          ∃ i', code[j]? = some i' ∧ i'.op.label?.isSome) ∧
        ∀ b, Machine.Alike (shift kept) dead p.machine b →
          Machine.Alike (shift kept) dead m b) :
    Preserves functions settings held moving code kept.reduceOption where
  linked := fun hl => (hlinked hl).after
  tidy := htidy
  runs := fun hl ht _ hP => (hlinked hl).runs hs dead I (fun m op => op.Trusty held m)
    (fun _ op hlab => by cases op <;> first | exact trivial | cases hlab)
    (fun _ _ _ _ hab hread h => h.of_alike hab hread) hstart (hstep hl ht) hread (hkeep hl ht)
    (hdrop hl ht) hP

end

end NumericScript
