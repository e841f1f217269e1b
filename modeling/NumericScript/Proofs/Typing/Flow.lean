import Mathlib.Algebra.Group.Nat.Defs
import NumericScript.Lowering
import NumericScript.Proofs.Typing.Builtin

/-! # Types along code

What is known at each position of code about the types of what the machine holds there: its local
variables, temporaries and arguments, and what the last call gave.  A `Note` says of an
instruction what the types of the values are that it takes in and gives.

* `OpTyped`: how an operation that is noted takes one assertion to the next.
* `Flows`: the same for pieces of code.
* `Flows.append`, `Flows.drop`: pieces of code are put together, and taken apart. -/

namespace NumericScript

open Analysis

/-- What an instruction takes in and gives. -/
structure Note where
  /-- The types of the values taken in. -/
  reads : List Ty
  /-- The type of the value given, or of the place to which a value is moved. -/
  gives : Option Ty
deriving DecidableEq, Repr

/-- The type of a constant. -/
def Constant.ty : Constant → Ty
  | .int _ => .int
  | .float _ => .float
  | .str _ => .str
  | .bool _ => .bool

theorem Constant.has_toValue {shapes : Bool} (c : Constant) : c.ty.Has shapes c.toValue := by
  cases c with
  | int n => exact Ty.has_int n
  | float x => exact Ty.has_float x
  | str s => exact Ty.has_str s
  | bool b => exact Ty.has_bool b

namespace Typing

/-! ### Assertions -/

/-- What is known of the value that a temporary holds. -/
inductive Content where
  | value (t : Ty)
  /-- An array of `len` elements, the first `filled` of which are of type `element`. -/
  | filling (element : Ty) (len filled : Nat)

/-- The values of which a content speaks.  Indices are of 64 bits. -/
def Content.Has (shapes : Bool) : Content → Value → Prop
  | .value t, v => t.Has shapes v
  | .filling element len filled, v => ∃ items, v = .array items ∧ items.length = len ∧
    filled ≤ 2 ^ 63 ∧ ∀ i, i < filled → ∀ w, items[i]? = some w → element.Has shapes w

/-- What is known at a position of code. -/
structure Assertion where
  /-- The types of the local variables, by their slots. -/
  locals : String → Option Ty
  temps : Nat → Option Content
  /-- The types of the arguments for the next call, the last first. -/
  args : List Ty
  /-- The type of what the last call gave. -/
  returned : Option Ty
  /-- The type that the function at hand returns. -/
  returns : Ty

/-- What is known everywhere. -/
structure Interface where
  globals : String → Option Ty
  labels : Label → Option Assertion
  /-- The types that a function takes and gives. -/
  callees : String → Option (List Ty × Ty)

namespace Assertion

/-- The assertion with another content of a temporary. -/
def setTemp (S : Assertion) (u : Nat) (c : Content) : Assertion :=
  { S with temps := fun u' => if u' = u then some c else S.temps u' }

/-- The assertion with another type of a local variable. -/
def setLocal (S : Assertion) (slot : String) (t : Ty) : Assertion :=
  { S with locals := fun slot' => if slot = slot' then some t else S.locals slot' }

theorem setLocal_of_locals {S : Assertion} {slot : String} {t : Ty} (h : S.locals slot = some t) :
    S.setLocal slot t = S := by
  have hlocals : (fun slot' => if slot = slot' then some t else S.locals slot') = S.locals := by
    funext slot'
    by_cases hs : slot = slot'
    · rw [if_pos hs, ← hs, h]
    · rw [if_neg hs]
  rw [setLocal, hlocals]

theorem setTemp_of_temps {S : Assertion} {u : Nat} {c : Content} (h : S.temps u = some c) :
    S.setTemp u c = S := by
  have htemps : (fun u' => if u' = u then some c else S.temps u') = S.temps := by
    funext u'
    by_cases hu : u' = u
    · rw [if_pos hu, hu, h]
    · rw [if_neg hu]
  rw [setTemp, htemps]

/-- What the first assertion says entails what the second does. -/
structure Entails (shapes : Bool) (S T : Assertion) : Prop where
  locals : ∀ slot t, T.locals slot = some t → S.locals slot = some t
  temps : ∀ u d, T.temps u = some d →
    ∃ c, S.temps u = some c ∧ ∀ v, c.Has shapes v → d.Has shapes v
  args : S.args = T.args
  returned : ∀ t, T.returned = some t → S.returned = some t
  returns : S.returns = T.returns

variable {shapes : Bool} {S T U : Assertion}

theorem Entails.refl (S : Assertion) : S.Entails shapes S :=
  ⟨fun _ _ h => h, fun _ d h => ⟨d, h, fun _ hv => hv⟩, rfl, fun _ h => h, rfl⟩

theorem Entails.trans (h : S.Entails shapes T) (h' : T.Entails shapes U) : S.Entails shapes U where
  locals := fun slot t ht => h.locals slot t (h'.locals slot t ht)
  temps := by
    intro u e hu
    obtain ⟨d, hd, hde⟩ := h'.temps u e hu
    obtain ⟨c, hc, hcd⟩ := h.temps u d hd
    exact ⟨c, hc, fun v hv => hde v (hcd v hv)⟩
  args := h.args.trans h'.args
  returned := fun t ht => h.returned t (h'.returned t ht)
  returns := h.returns.trans h'.returns

end Assertion

section

variable (shapes : Bool) (I : Interface)

/-! ### Operands and places -/

/-- An operand holds a value of a type. -/
inductive OperandHas (S : Assertion) : Operand → Ty → Prop where
  | const {c : Constant} : OperandHas S (.const c) c.ty
  | temp {u : Nat} {t : Ty} (h : S.temps u = some (.value t)) : OperandHas S (.place (.temp u)) t
  | local {slot : String} {t : Ty} (h : S.locals slot = some t) :
      OperandHas S (.place (.var ⟨slot, .local⟩)) t
  | global {slot : String} {t : Ty} (h : I.globals slot = some t) :
      OperandHas S (.place (.var ⟨slot, .global⟩)) t
  | returned {t : Ty} (h : S.returned = some t) : OperandHas S .returned t

/-- An index is a whole number, or two of them are. -/
inductive IndexHas (S : Assertion) : Operand → Option Operand → List Ty → Prop where
  | element {row : Operand} {t : Ty} (hr : OperandHas I S row t) (ht : maybeInt t = true) :
      IndexHas S row none [t]
  | entry {row col : Operand} {t t' : Ty} (hr : OperandHas I S row t) (ht : maybeInt t = true)
      (hc : OperandHas I S col t') (ht' : maybeInt t' = true) : IndexHas S row (some col) [t, t']

/-- The assertion after a place has got a new content.  A global variable only takes values of
its type. -/
inductive Writes (S : Assertion) : Place → Content → Assertion → Prop where
  | temp {u : Nat} {c : Content} : Writes S (.temp u) c (S.setTemp u c)
  | local {slot : String} {t : Ty} :
      Writes S (.var ⟨slot, .local⟩) (.value t) (S.setLocal slot t)
  | global {slot : String} {t : Ty} (h : I.globals slot = some t) :
      Writes S (.var ⟨slot, .global⟩) (.value t) S

/-- A value of the first type may be moved to a place of the second: it is one of the second by
what the types say, or they leave it open. -/
def Moves (found t : Ty) : Prop := found.isOpen shapes = true ∨ found.fits shapes t = true

/-! ### Operations -/

/-- How a noted operation takes one assertion to the next.  Behind a jump, nothing is asked. -/
inductive OpTyped (S : Assertion) : Op → Note → Assertion → Prop where
  | assign {d : Place} {c : Constant} {t : Ty} {S' : Assertion}
      (hc : c.ty.fits shapes t = true) (hw : Writes I S d (.value t) S') :
      OpTyped S (.assign d c) ⟨[], some t⟩ S'
  | copy {d : Place} {o : Operand} {found t : Ty} {S' : Assertion} (ho : OperandHas I S o found)
      (hf : Moves shapes found t) (hw : Writes I S d (.value t) S') :
      OpTyped S (.copy d o) ⟨[found], some t⟩ S'
  | binary {d : Place} {op : BinaryOp} {l r : Operand} {left right t : Ty} {S' : Assertion}
      (hl : OperandHas I S l left) (hr : OperandHas I S r right)
      (ht : binaryTy? op left right = some t) (hw : Writes I S d (.value t) S') :
      OpTyped S (.binary d op l r) ⟨[left, right], some t⟩ S'
  | unary {d : Place} {op : UnaryOp} {o : Operand} {operand t : Ty} {S' : Assertion}
      (ho : OperandHas I S o operand) (ht : unaryTy? op operand = some t)
      (hw : Writes I S d (.value t) S') : OpTyped S (.unary d op.fn o) ⟨[operand], some t⟩ S'
  | widen {d : Place} {o : Operand} {S' : Assertion} (ho : OperandHas I S o .int)
      (hw : Writes I S d (.value .float) S') :
      OpTyped S (.unary d .toFloat o) ⟨[.int], some .float⟩ S'
  | label {l : Label} {T : Assertion} (hl : I.labels l = some T) (hS : S.Entails shapes T) :
      OpTyped S (.label l) ⟨[], none⟩ T
  | jump {l : Label} {T S' : Assertion} (hl : I.labels l = some T) (hS : S.Entails shapes T) :
      OpTyped S (.jump l) ⟨[], none⟩ S'
  | jumpIfFalse {o : Operand} {l : Label} {t : Ty} {T : Assertion} (ho : OperandHas I S o t)
      (ht : maybeBool t = true) (hl : I.labels l = some T) (hS : S.Entails shapes T) :
      OpTyped S (.jumpIfFalse o l) ⟨[t], none⟩ S
  | param {o : Operand} {found t : Ty} (ho : OperandHas I S o found) (hf : Moves shapes found t) :
      OpTyped S (.param o) ⟨[found], some t⟩ { S with args := t :: S.args }
  | builtin {b : Builtin} {ts rest : List Ty} (ha : b.Accepts ts)
      (hargs : S.args = ts.reverse ++ rest) :
      OpTyped S (.call (.builtin b) ts.length) ⟨ts, some b.returns⟩
        { S with args := rest, returned := some b.returns }
  | user {f : String} {params rest : List Ty} {returns : Ty}
      (hf : I.callees f = some (params, returns)) (hargs : S.args = params.reverse ++ rest) :
      OpTyped S (.call (.user f) params.length) ⟨params, some returns⟩
        { S with args := rest, returned := if returns = .void then none else some returns }
  | leave {S' : Assertion} (hargs : S.args = []) : OpTyped S (.return none) ⟨[], none⟩ S'
  | return {o : Operand} {found : Ty} {S' : Assertion} (ho : OperandHas I S o found)
      (hf : Moves shapes found S.returns) (hargs : S.args = []) :
      OpTyped S (.return (some o)) ⟨[found], some S.returns⟩ S'
  | print {o : Operand} {newline : Bool} {t : Ty} (ho : OperandHas I S o t) :
      OpTyped S (.print o newline) ⟨[t], none⟩ S
  | input {d : Place} {t : Ty} {S' : Assertion} (hw : Writes I S d (.value t) S') :
      OpTyped S (.input d t) ⟨[], some t⟩ S'
  | newArray {u len : Nat} {element : Ty} :
      OpTyped S (.newArray (.temp u) len) ⟨[], none⟩ (S.setTemp u (.filling element len 0))
  | newMatrix {u rows cols : Nat} :
      OpTyped S (.newMatrix (.temp u) rows cols) ⟨[], some (.matrix (some (rows, cols)))⟩
        (S.setTemp u (.value (.matrix (some (rows, cols)))))
  | load {d : Place} {b row : Operand} {col : Option Operand} {container t : Ty} {ts : List Ty}
      {S' : Assertion} (hb : OperandHas I S b container) (hi : IndexHas I S row col ts)
      (ht : elementTy? container col.isSome = some t) (hw : Writes I S d (.value t) S') :
      OpTyped S (.load d b row col) ⟨container :: ts, some t⟩ S'
  | storeElement {x : Variable} {row o : Operand} {col : Option Operand} {container t found : Ty}
      {ts : List Ty} (hb : OperandHas I S (.place (.var x)) container)
      (hi : IndexHas I S row col ts)
      (ht : elementTy? container col.isSome = some t) (hm : container.isMatrix = false)
      (ho : OperandHas I S o found) (hf : Moves shapes found t) :
      OpTyped S (.store (.var x) row col o) ⟨container :: ts ++ [found], some t⟩ S
  | storeEntry {x : Variable} {row col o : Operand} {shape : Option (Nat × Nat)} {found : Ty}
      {ts : List Ty} (hb : OperandHas I S (.place (.var x)) (.matrix shape))
      (hi : IndexHas I S row (some col) ts) (ho : OperandHas I S o found)
      (hn : (found.isNumeric || found.isUnknown) = true) :
      OpTyped S (.store (.var x) row (some col) o) ⟨.matrix shape :: ts ++ [found], none⟩ S
  | fill {u len k : Nat} {o : Operand} {element found : Ty}
      (hu : S.temps u = some (.filling element len k)) (ho : OperandHas I S o found)
      (hf : Moves shapes found element) :
      OpTyped S (.store (.temp u) (Lowering.indexConst k) none o) ⟨[.int, found], some element⟩
        (S.setTemp u (.filling element len (k + 1)))
  | entry {u r c : Nat} {o : Operand} {shape : Option (Nat × Nat)} {found : Ty}
      (hu : S.temps u = some (.value (.matrix shape))) (ho : OperandHas I S o found)
      (hn : (found.isNumeric || found.isUnknown) = true) :
      OpTyped S (.store (.temp u) (Lowering.indexConst r) (some (Lowering.indexConst c)) o)
        ⟨[.int, .int, found], none⟩ S
  | halt {S' : Assertion} : OpTyped S .halt ⟨[], none⟩ S'

/-! ### Pieces of code -/

/-- How noted code takes one assertion to the next. -/
inductive Flows : Assertion → List Instr → List Note → Assertion → Prop where
  | nil {S T : Assertion} (h : S.Entails shapes T) : Flows S [] [] T
  | cons {S S₁ S₂ T : Assertion} {i : Instr} {n : Note} {is : List Instr} {ns : List Note}
      (hS : S.Entails shapes S₁) (h : OpTyped shapes I S₁ i.op n S₂) (hr : Flows S₂ is ns T) :
      Flows S (i :: is) (n :: ns) T

/-- What is known at a position of noted code. -/
def At (code : List Instr) (notes : List Note) (k : Nat) (S : Assertion) : Prop :=
  ∃ T, Flows shapes I S (code.drop k) (notes.drop k) T

end

section

variable {shapes : Bool} {I : Interface} {S S' T U : Assertion} {code code' : List Instr}
  {notes notes' : List Note}

/-- A variable that gets a value of its type keeps it. -/
theorem writes_self {x : Variable} {t : Ty} (hx : OperandHas I S (.place (.var x)) t) :
    Writes I S (.var x) (.value t) S := by
  cases hx with
  | @«local» slot _ hl =>
    have hw := @Writes.local I S slot t
    rwa [Assertion.setLocal_of_locals hl] at hw
  | global hg => exact .global hg

theorem Flows.of_entails (hS : S.Entails shapes S') (h : Flows shapes I S' code notes T) :
    Flows shapes I S code notes T := by
  cases h with
  | nil h => exact .nil (hS.trans h)
  | cons hS' h hr => exact .cons (hS.trans hS') h hr

theorem Flows.entails (h : Flows shapes I S code notes T) (hT : T.Entails shapes U) :
    Flows shapes I S code notes U := by
  induction h with
  | nil h => exact .nil (h.trans hT)
  | cons hS h _ ih => exact .cons hS h (ih hT)

/-- Pieces of code are put together. -/
theorem Flows.append (h : Flows shapes I S code notes T) (h' : Flows shapes I T code' notes' U) :
    Flows shapes I S (code ++ code') (notes ++ notes') U := by
  induction h with
  | nil hS => exact h'.of_entails hS
  | cons hS h _ ih => exact .cons hS h (ih h')

theorem Flows.one {i : Instr} {n : Note} (h : OpTyped shapes I S i.op n T) :
    Flows shapes I S [i] [n] T := .cons (.refl S) h (.nil (.refl T))

theorem Flows.length_eq (h : Flows shapes I S code notes T) : code.length = notes.length := by
  induction h with
  | nil => rfl
  | cons _ _ _ ih => exact congrArg (· + 1) ih

/-- Code is taken apart. -/
theorem Flows.drop (h : Flows shapes I S code notes T) (k : Nat) :
    ∃ U, Flows shapes I U (code.drop k) (notes.drop k) T := by
  induction h generalizing k with
  | nil h => exact ⟨_, by simpa using .nil h⟩
  | @cons S S₁ S₂ T i n is ns hS h hr ih =>
    cases k with
    | zero => exact ⟨S, .cons hS h hr⟩
    | succ k => exact ih k

/-- What is known at a position and at the next one. -/
theorem At.next {k : Nat} {i : Instr} (h : At shapes I code notes k S) (hi : code[k]? = some i) :
    ∃ n S₁ S₂, notes[k]? = some n ∧ S.Entails shapes S₁ ∧ OpTyped shapes I S₁ i.op n S₂ ∧
      At shapes I code notes (k + 1) S₂ := by
  obtain ⟨T, h⟩ := h
  obtain ⟨hk, rfl⟩ := List.getElem?_eq_some_iff.1 hi
  rw [List.drop_eq_getElem_cons hk] at h
  have hlen := h.length_eq
  rw [List.length_cons, List.length_drop, List.length_drop] at hlen
  have hn : k < notes.length := by omega
  rw [List.drop_eq_getElem_cons hn] at h
  cases h with
  | cons hS h hr => exact ⟨_, _, _, List.getElem?_eq_getElem hn, hS, h, T, hr⟩

/-- What is known at a label is known behind every jump to it. -/
theorem Flows.at_label {k : Nat} {i : Instr} {l : Label} (h : Flows shapes I S code notes T)
    (hi : code[k]? = some i) (hl : i.op.label? = some l) :
    ∃ U, I.labels l = some U ∧ At shapes I code notes k U := by
  obtain ⟨V, hV⟩ := h.drop k
  obtain ⟨n, S₁, S₂, hn, hS, hop, T', hr⟩ := At.next (k := k) (i := i) ⟨T, hV⟩ hi
  have hcons : ∀ U, OpTyped shapes I U i.op n S₂ → At shapes I code notes k U := by
    intro U hU
    obtain ⟨hk, rfl⟩ := List.getElem?_eq_some_iff.1 hi
    obtain ⟨hkn, rfl⟩ := List.getElem?_eq_some_iff.1 hn
    refine ⟨T', ?_⟩
    rw [List.drop_eq_getElem_cons hk, List.drop_eq_getElem_cons hkn]
    exact .cons (.refl U) hU hr
  generalize i.op = op at hop hl hcons
  cases hop with
  | label hI hST =>
    cases hl
    exact ⟨S₂, hI, hcons S₂ (.label hI (.refl S₂))⟩
  | _ => cases hl

end

end Typing

end NumericScript
