import Mathlib.Data.List.Induction
import NumericScript.Proofs.Lowering.Complete
import NumericScript.Proofs.Typing.Notes

/-! # Programs in which nothing is unknown

In some programs the type of every expression, variable and parameter is known, and what every
function returns.  Then analysis has asked for all values that are wanted, and all types in the
notes of their code are known.

* `Program.isKnown`: these programs.
* `ProgramTyped.exists_lower_of_isKnown`: they are lowered.
* `Program.isKnown_notes`: the notes of their code. -/

namespace NumericScript

open Lowering (Context Signature calls callee? itemTy)

/-! ### Known programs -/

/-- Whether the type at a mark is known. -/
def Mark.isKnown (m : Mark) : Bool := (m.ty.getD .unknown).isKnown

mutual

/-- Whether nothing in an expression is of unknown type. -/
def Expr.isKnown : Expr → Bool
  | .int m _ | .float m _ | .str m _ | .bool m _ => m.isKnown
  | .name m x => m.isKnown && x.ty.isKnown
  | .binary m _ l r => m.isKnown && l.isKnown && r.isKnown
  | .unary m _ e => m.isKnown && e.isKnown
  | .call m _ args => m.isKnown && Expr.areKnown args
  | .array m items => m.isKnown && Expr.areKnown items
  | .matrix m rows => m.isKnown && Expr.areRowsKnown rows
  | .index m base row col =>
    m.isKnown && base.isKnown && row.isKnown && Expr.isKnownOptional col

def Expr.areKnown : List Expr → Bool
  | [] => true
  | e :: es => e.isKnown && Expr.areKnown es

def Expr.areRowsKnown : List (List Expr) → Bool
  | [] => true
  | es :: rows => Expr.areKnown es && Expr.areRowsKnown rows

def Expr.isKnownOptional : Option Expr → Bool
  | none => true
  | some e => e.isKnown

end

mutual

/-- Whether nothing in a statement is of unknown type. -/
def Stmt.isKnown : Stmt → Bool
  | .decl _ x _ init => x.ty.isKnown && init.isKnown
  | .assign _ x none value => x.ty.isKnown && value.isKnown
  | .assign _ x (some s) value =>
    x.ty.isKnown && s.row.isKnown && Expr.isKnownOptional s.col && value.isKnown
  | .function _ _ returns params body =>
    returns.isKnown && params.all (fun p => p.ty.isKnown && p.name.ty.isKnown) &&
      Stmt.areKnown body
  | .cond _ e body none => e.isKnown && Stmt.areKnown body
  | .cond _ e body (some orElse) => e.isKnown && Stmt.areKnown body && Stmt.areKnown orElse
  | .while _ e body | .repeat _ e body => e.isKnown && Stmt.areKnown body
  | .for _ init e update body =>
    init.isKnown && e.isKnown && update.isKnown && Stmt.areKnown body
  | .break _ | .continue _ | .return _ none => true
  | .return _ (some e) => e.isKnown
  | .print _ values => Expr.areKnown values
  | .input _ x => x.ty.isKnown
  | .expr _ e => e.isKnown

def Stmt.areKnown : List Stmt → Bool
  | [] => true
  | s :: ss => s.isKnown && Stmt.areKnown ss

end

/-- Whether nothing in a program is of unknown type. -/
def Program.isKnown (p : Program) : Bool := Stmt.areKnown p

theorem Expr.ty_of_isKnown {e : Expr} (h : e.isKnown = true) : e.ty.isKnown = true := by
  cases e <;> simp only [isKnown, Bool.and_eq_true] at h <;>
    first | exact h | exact h.1 | exact h.1.1 | exact h.1.1.1

theorem Ty.isKnown_element {t u : Ty} (h : t.isKnown = true) (hu : t.element? = some u) :
    u.isKnown = true := by
  cases t with
  | array a => cases hu; exact h
  | matrix => cases hu; rfl
  | unknown => cases h
  | _ => cases hu

/-! ### Values that are wanted -/

mutual

/-- No operand is of unknown type, so analysis asks for the value of the other. -/
theorem Expr.wantsVoid_of_isKnown (e : Expr) : e.isKnown = true → e.wantsVoid = false := by
  intro he
  cases e with
  | int | float | str | bool | name => rfl
  | binary m op l r =>
    simp only [Expr.isKnown, Bool.and_eq_true] at he
    have hl := Ty.ne_unknown_of_isKnown (Expr.ty_of_isKnown he.1.2)
    have hr := Ty.ne_unknown_of_isKnown (Expr.ty_of_isKnown he.2)
    simp [Expr.wantsVoid, hl, hr, Expr.wantsVoid_of_isKnown l he.1.2,
      Expr.wantsVoid_of_isKnown r he.2]
  | unary m op e =>
    simp only [Expr.isKnown, Bool.and_eq_true] at he
    exact Expr.wantsVoid_of_isKnown e he.2
  | call m f args =>
    simp only [Expr.isKnown, Bool.and_eq_true] at he
    exact Expr.wantsVoidAny_of_areKnown args he.2
  | array m items =>
    simp only [Expr.isKnown, Bool.and_eq_true] at he
    exact Expr.wantsVoidAny_of_areKnown items he.2
  | matrix m rows =>
    simp only [Expr.isKnown, Bool.and_eq_true] at he
    exact Expr.wantsVoidAnyRow_of_areRowsKnown rows he.2
  | index m base row col =>
    simp only [Expr.isKnown, Bool.and_eq_true] at he
    have hbase := Expr.wantsVoid_of_isKnown base he.1.1.2
    have hrow := Expr.wantsVoid_of_isKnown row he.1.2
    cases col with
    | none => simp [Expr.wantsVoid, hbase, hrow]
    | some col => simp [Expr.wantsVoid, hbase, hrow, Expr.wantsVoid_of_isKnown col he.2]
termination_by structural e

theorem Expr.wantsVoidAny_of_areKnown (es : List Expr) :
    Expr.areKnown es = true → Expr.wantsVoidAny es = false := by
  intro hes
  cases es with
  | nil => rfl
  | cons e es =>
    obtain ⟨he, hes⟩ := Bool.and_eq_true_iff.1 hes
    simp [Expr.wantsVoidAny, Expr.wantsVoid_of_isKnown e he, Expr.wantsVoidAny_of_areKnown es hes]
termination_by structural es

theorem Expr.wantsVoidAnyRow_of_areRowsKnown (rows : List (List Expr)) :
    Expr.areRowsKnown rows = true → Expr.wantsVoidAnyRow rows = false := by
  intro hrows
  cases rows with
  | nil => rfl
  | cons es rows =>
    obtain ⟨hes, hrows⟩ := Bool.and_eq_true_iff.1 hrows
    simp [Expr.wantsVoidAnyRow, Expr.wantsVoidAny_of_areKnown es hes,
      Expr.wantsVoidAnyRow_of_areRowsKnown rows hrows]
termination_by structural rows

end

theorem Name.holdsUnknown_of_isKnown {x : Name} (h : x.ty.isKnown = true) :
    x.holdsUnknown = false := by
  unfold Name.holdsUnknown
  cases hb : x.binding with
  | none => rfl
  | some b =>
    rw [Name.ty, hb] at h
    refine decide_eq_false fun hu => ?_
    have hknown := Ty.isKnown_element h hu
    cases hknown

mutual

theorem Stmt.wantsVoid_of_isKnown (st : Stmt) : st.isKnown = true → st.wantsVoid = false := by
  intro hst
  cases st with
  | decl loc x declared init =>
    simp only [Stmt.isKnown, Bool.and_eq_true] at hst
    exact Expr.wantsVoid_of_isKnown init hst.2
  | assign loc x sub value =>
    cases sub with
    | none =>
      simp only [Stmt.isKnown, Bool.and_eq_true] at hst
      exact Expr.wantsVoid_of_isKnown value hst.2
    | some s =>
      obtain ⟨row, col⟩ := s
      simp only [Stmt.isKnown, Bool.and_eq_true] at hst
      have hcol : Expr.wantsVoidOptional col = false := by
        cases col with
        | none => rfl
        | some col => exact Expr.wantsVoid_of_isKnown col hst.1.2
      simp [Stmt.wantsVoid, hcol, Name.holdsUnknown_of_isKnown hst.1.1.1,
        Expr.wantsVoid_of_isKnown row hst.1.1.2, Expr.wantsVoid_of_isKnown value hst.2]
  | function loc f returns params body =>
    simp only [Stmt.isKnown, Bool.and_eq_true] at hst
    exact Stmt.wantsVoidAny_of_areKnown body hst.2
  | cond loc e body orElse =>
    cases orElse with
    | none =>
      simp only [Stmt.isKnown, Bool.and_eq_true] at hst
      simp [Stmt.wantsVoid, Expr.wantsVoid_of_isKnown e hst.1,
        Stmt.wantsVoidAny_of_areKnown body hst.2]
    | some orElse =>
      simp only [Stmt.isKnown, Bool.and_eq_true] at hst
      simp [Stmt.wantsVoid, Expr.wantsVoid_of_isKnown e hst.1.1,
        Stmt.wantsVoidAny_of_areKnown body hst.1.2, Stmt.wantsVoidAny_of_areKnown orElse hst.2]
  | «while» loc e body | «repeat» loc e body =>
    simp only [Stmt.isKnown, Bool.and_eq_true] at hst
    simp [Stmt.wantsVoid, Expr.wantsVoid_of_isKnown e hst.1,
      Stmt.wantsVoidAny_of_areKnown body hst.2]
  | «for» loc init e update body =>
    simp only [Stmt.isKnown, Bool.and_eq_true] at hst
    simp [Stmt.wantsVoid, Stmt.wantsVoid_of_isKnown init hst.1.1.1,
      Expr.wantsVoid_of_isKnown e hst.1.1.2, Stmt.wantsVoid_of_isKnown update hst.1.2,
      Stmt.wantsVoidAny_of_areKnown body hst.2]
  | «break» | «continue» | input => rfl
  | «return» loc value =>
    cases value with
    | none => rfl
    | some e => exact Expr.wantsVoid_of_isKnown e hst
  | print loc values => exact Expr.wantsVoidAny_of_areKnown values hst
  | expr loc e => exact Expr.wantsVoid_of_isKnown e hst
termination_by structural st

theorem Stmt.wantsVoidAny_of_areKnown (ss : List Stmt) :
    Stmt.areKnown ss = true → Stmt.wantsVoidAny ss = false := by
  intro hss
  cases ss with
  | nil => rfl
  | cons st ss =>
    obtain ⟨hst, hss⟩ := Bool.and_eq_true_iff.1 hss
    simp [Stmt.wantsVoidAny, Stmt.wantsVoid_of_isKnown st hst,
      Stmt.wantsVoidAny_of_areKnown ss hss]
termination_by structural ss

end

/-- A program that analysis accepts is lowered if nothing in it is of unknown type. -/
theorem ProgramTyped.exists_lower_of_isKnown {p : Program} (h : ProgramTyped p)
    (hk : p.isKnown = true) : ∃ code, p.lower = .ok code := by
  have hlowers := h.lowers
  rw [Stmt.wantsVoidAny_of_areKnown p hk] at hlowers
  exact hlowers

/-! ### Known notes -/

@[simp] theorem Ty.isKnown_int : Ty.int.isKnown = true := rfl

namespace Note

/-- All types of what is taken in are known. -/
def AreKnown (ns : List Note) : Prop := ∀ n ∈ ns, ∀ t ∈ n.reads, t.isKnown = true

@[simp] theorem areKnown_nil : AreKnown [] := fun _ hn => absurd hn List.not_mem_nil

@[simp] theorem areKnown_append {ns ns' : List Note} :
    AreKnown (ns ++ ns') ↔ AreKnown ns ∧ AreKnown ns' := by
  simp only [AreKnown, List.mem_append, or_imp, forall_and]

@[simp] theorem areKnown_cons {n : Note} {ns : List Note} :
    AreKnown (n :: ns) ↔ (∀ t ∈ n.reads, t.isKnown = true) ∧ AreKnown ns := by
  simp only [AreKnown, List.mem_cons, or_imp, forall_and, forall_eq]

theorem areKnown_one {n : Note} (h : ∀ t ∈ n.reads, t.isKnown = true) : AreKnown [n] :=
  areKnown_cons.2 ⟨h, areKnown_nil⟩

@[simp] theorem reads_plain : plain.reads = [] := rfl

@[simp] theorem reads_test (t : Ty) : (test t).reads = [t] := rfl

theorem areKnown_plain : AreKnown [plain] := by simp

theorem areKnown_pin {changes : Bool} {e : Expr} (h : e.ty.isKnown = true) :
    AreKnown (pin changes e) := by
  unfold pin
  split <;> simp [h]

theorem areKnown_widen (e : Expr) (expected : Ty) : AreKnown (widen e expected) := by
  unfold widen
  split <;> simp

theorem isKnown_widenedTy {found : Ty} (h : found.isKnown = true) (expected : Ty) :
    (widenedTy found expected).isKnown = true := by
  unfold widenedTy
  split
  · rfl
  · exact h

theorem isKnown_put {e : Expr} (h : e.ty.isKnown = true) (t : Ty) :
    ∀ u ∈ (put e t).reads, u.isKnown = true := by
  unfold put
  split
  · simp
  · simpa using isKnown_widenedTy h t

theorem isKnown_param {e : Expr} (h : e.ty.isKnown = true) (expected : Option Ty) :
    ∀ u ∈ (param expected e).reads, u.isKnown = true := by
  simpa [param] using isKnown_widenedTy h _

theorem isKnown_store {container : Ty} {index : List Ty} {e : Expr}
    (hc : container.isKnown = true) (hi : ∀ t ∈ index, t.isKnown = true)
    (he : e.ty.isKnown = true) : ∀ u ∈ (store container index e).reads, u.isKnown = true := by
  have hvalue := isKnown_widenedTy he (container.element?.getD .unknown)
  simp only [store, List.cons_append, List.mem_cons, List.mem_append, List.not_mem_nil, or_false]
  rintro t (rfl | ht | rfl)
  · exact hc
  · exact hi t ht
  · exact hvalue

end Note

open Note

theorem isKnown_passed {es : List Expr} : ∀ {params : List Ty},
    (∀ t ∈ params, t.isKnown = true) → Expr.areKnown es = true →
    ∀ t ∈ passed params es, t.isKnown = true := by
  induction es with
  | nil => exact fun _ _ t ht => absurd ht List.not_mem_nil
  | cons e es ih =>
    intro params hp he t ht
    obtain ⟨he, hes⟩ := Bool.and_eq_true_iff.1 he
    rcases List.mem_cons.1 ht with rfl | ht
    · cases params with
      | nil => exact Expr.ty_of_isKnown he
      | cons u params => exact hp u List.mem_cons_self
    · exact ih (fun u hu => hp u (List.mem_of_mem_tail hu)) hes t ht

/-- The functions of a program take and return what is known. -/
def SignaturesKnown (sigs : Store String Signature) : Prop :=
  ∀ f s, sigs.get? f = some s → (∀ t ∈ s.params, t.isKnown = true) ∧ s.returns.isKnown = true

section

variable {sigs : Store String Signature}

theorem SignaturesKnown.callee (h : SignaturesKnown sigs) {f : String} {target : Callee}
    {params : List Ty} {returns : Ty}
    (hf : callee? ⟨sigs, .unknown, none⟩ f = some (target, params, returns)) :
    (∀ t ∈ params, t.isKnown = true) ∧ returns.isKnown = true := by
  unfold callee? at hf
  split at hf
  · rename_i s hs
    cases hf
    exact h f s hs
  · obtain ⟨b, -, hb⟩ := Option.map_eq_some_iff.1 hf
    cases hb
    refine ⟨fun t ht => absurd ht List.not_mem_nil, ?_⟩
    cases b <;> rfl

mutual

theorem Expr.areKnown_notes (h : SignaturesKnown sigs) (e : Expr) :
    e.isKnown = true → AreKnown (e.notes sigs) := by
  intro he
  cases e with
  | int | float | str | bool | name => exact areKnown_nil
  | binary m op l r =>
    simp only [Expr.isKnown, Bool.and_eq_true] at he
    have hl := Expr.ty_of_isKnown he.1.2
    have hr := Expr.ty_of_isKnown he.2
    simp [Expr.notes, Expr.areKnown_notes h l he.1.2, Expr.areKnown_notes h r he.2, areKnown_pin,
      hl, hr]
  | unary m op e =>
    simp only [Expr.isKnown, Bool.and_eq_true] at he
    simp [Expr.notes, Expr.areKnown_notes h e he.2, Expr.ty_of_isKnown he.2]
  | call m f args =>
    simp only [Expr.isKnown, Bool.and_eq_true] at he
    rw [Expr.notes]
    split
    · exact areKnown_nil
    · rename_i target params returns hf
      obtain ⟨hparams, hreturns⟩ := h.callee hf
      have hargs := Expr.areKnown_argumentNotes h args params he.2
      simpa [hargs, hreturns] using isKnown_passed hparams he.2
  | array m items =>
    simp only [Expr.isKnown, Bool.and_eq_true] at he
    simp [Expr.notes, Expr.areKnown_elementNotes h items _ he.2]
  | matrix m rows =>
    simp only [Expr.isKnown, Bool.and_eq_true] at he
    simp [Expr.notes, Expr.areKnown_rowNotes h rows he.2]
  | index m base row col =>
    simp only [Expr.isKnown, Bool.and_eq_true] at he
    have hb := Expr.ty_of_isKnown he.1.1.2
    have hr := Expr.ty_of_isKnown he.1.2
    have hbase := Expr.areKnown_notes h base he.1.1.2
    have hrow := Expr.areKnown_notes h row he.1.2
    cases col with
    | none => simp [Expr.notes, hbase, hrow, areKnown_pin, hb, hr]
    | some col =>
      have hknown : col.isKnown = true := he.2
      have hc := Expr.ty_of_isKnown hknown
      simp [Expr.notes, hbase, hrow, Expr.areKnown_notes h col hknown, areKnown_pin, hb, hr, hc]
termination_by structural e

theorem Expr.areKnown_argumentNotes (h : SignaturesKnown sigs) (es : List Expr) :
    ∀ params, Expr.areKnown es = true → AreKnown (Expr.argumentNotes sigs params es) := by
  intro params hes
  cases es with
  | nil => exact areKnown_nil
  | cons e es =>
    obtain ⟨he, hes⟩ := Bool.and_eq_true_iff.1 hes
    simp only [Expr.argumentNotes, areKnown_append]
    exact ⟨⟨⟨Expr.areKnown_notes h e he, areKnown_widen _ _⟩,
      areKnown_one (isKnown_param (Expr.ty_of_isKnown he) _)⟩,
      Expr.areKnown_argumentNotes h es _ hes⟩
termination_by structural es

theorem Expr.areKnown_elementNotes (h : SignaturesKnown sigs) (es : List Expr) :
    ∀ element, Expr.areKnown es = true → AreKnown (Expr.elementNotes sigs element es) := by
  intro element hes
  cases es with
  | nil => exact areKnown_nil
  | cons e es =>
    obtain ⟨he, hes⟩ := Bool.and_eq_true_iff.1 hes
    have hstore : AreKnown [⟨[.int, widenedTy e.ty element], some element⟩] := by
      simpa using isKnown_widenedTy (Expr.ty_of_isKnown he) element
    simp only [Expr.elementNotes, areKnown_append]
    exact ⟨⟨⟨Expr.areKnown_notes h e he, areKnown_widen _ _⟩, hstore⟩,
      Expr.areKnown_elementNotes h es _ hes⟩
termination_by structural es

theorem Expr.areKnown_entryNotes (h : SignaturesKnown sigs) (es : List Expr) :
    Expr.areKnown es = true → AreKnown (Expr.entryNotes sigs es) := by
  intro hes
  cases es with
  | nil => exact areKnown_nil
  | cons e es =>
    obtain ⟨he, hes⟩ := Bool.and_eq_true_iff.1 hes
    have hstore : AreKnown [⟨[.int, .int, widenedTy e.ty .float], none⟩] := by
      simpa using isKnown_widenedTy (Expr.ty_of_isKnown he) .float
    simp only [Expr.entryNotes, areKnown_append]
    exact ⟨⟨⟨Expr.areKnown_notes h e he, areKnown_widen _ _⟩, hstore⟩,
      Expr.areKnown_entryNotes h es hes⟩
termination_by structural es

theorem Expr.areKnown_rowNotes (h : SignaturesKnown sigs) (rows : List (List Expr)) :
    Expr.areRowsKnown rows = true → AreKnown (Expr.rowNotes sigs rows) := by
  intro hrows
  cases rows with
  | nil => exact areKnown_nil
  | cons es rows =>
    obtain ⟨hes, hrows⟩ := Bool.and_eq_true_iff.1 hrows
    simp only [Expr.rowNotes, areKnown_append]
    exact ⟨Expr.areKnown_entryNotes h es hes, Expr.areKnown_rowNotes h rows hrows⟩
termination_by structural rows

end

theorem areKnown_widenedNotes (h : SignaturesKnown sigs) {e : Expr} (he : e.isKnown = true)
    (expected : Ty) : AreKnown (e.widenedNotes sigs expected) := by
  simp only [Expr.widenedNotes, areKnown_append]
  exact ⟨Expr.areKnown_notes h e he, areKnown_widen _ _⟩

theorem areKnown_printNotes (h : SignaturesKnown sigs) {es : List Expr}
    (hes : Expr.areKnown es = true) : AreKnown (Expr.printNotes sigs es) := by
  induction es with
  | nil => exact areKnown_nil
  | cons e es ih =>
    obtain ⟨he, hes⟩ := Bool.and_eq_true_iff.1 hes
    simp [Expr.printNotes, Expr.areKnown_notes h e he, Expr.ty_of_isKnown he, ih hes]

theorem areKnown_setNotes (h : SignaturesKnown sigs) {x : Name} {e : Expr} (he : e.isKnown = true) :
    AreKnown (x.setNotes sigs e) := by
  simp only [Name.setNotes, areKnown_append]
  exact ⟨areKnown_widenedNotes h he _, areKnown_one (isKnown_put (Expr.ty_of_isKnown he) _)⟩

theorem areKnown_storeNotes (h : SignaturesKnown sigs) {x : Name} {s : Subscript} {e : Expr}
    (hx : x.ty.isKnown = true) (hr : s.row.isKnown = true) (hc : Expr.isKnownOptional s.col = true)
    (he : e.isKnown = true) : AreKnown (x.storeNotes sigs s e) := by
  obtain ⟨row, col⟩ := s
  have hrow := Expr.ty_of_isKnown hr
  cases col with
  | none =>
    simp only [Name.storeNotes, areKnown_append]
    exact ⟨⟨⟨Expr.areKnown_notes h row hr, areKnown_pin hrow⟩, areKnown_widenedNotes h he _⟩,
      areKnown_one (isKnown_store hx (by simpa using hrow) (Expr.ty_of_isKnown he))⟩
  | some col =>
    have hknown : col.isKnown = true := hc
    have hcol := Expr.ty_of_isKnown hknown
    simp only [Name.storeNotes, areKnown_append]
    exact ⟨⟨⟨⟨Expr.areKnown_notes h row hr, areKnown_pin hrow⟩,
      Expr.areKnown_notes h col hknown, areKnown_pin hcol⟩, areKnown_widenedNotes h he _⟩,
      areKnown_one (isKnown_store hx (by simp [hrow, hcol]) (Expr.ty_of_isKnown he))⟩

mutual

theorem Stmt.areKnown_notes (h : SignaturesKnown sigs) (st : Stmt) : ∀ returns, st.isKnown = true →
    AreKnown (st.notes sigs returns) := by
  intro returns hst
  cases st with
  | decl loc x declared init =>
    simp only [Stmt.isKnown, Bool.and_eq_true] at hst
    exact areKnown_setNotes h hst.2
  | assign loc x sub value =>
    cases sub with
    | none =>
      simp only [Stmt.isKnown, Bool.and_eq_true] at hst
      exact areKnown_setNotes h hst.2
    | some s =>
      simp only [Stmt.isKnown, Bool.and_eq_true] at hst
      exact areKnown_storeNotes h hst.1.1.1 hst.1.1.2 hst.1.2 hst.2
  | function => exact areKnown_nil
  | cond loc e body orElse =>
    cases orElse with
    | none =>
      simp only [Stmt.isKnown, Bool.and_eq_true] at hst
      simp [Stmt.notes, Expr.areKnown_notes h e hst.1, Expr.ty_of_isKnown hst.1,
        Stmt.areKnown_blockNotes h body returns hst.2]
    | some orElse =>
      simp only [Stmt.isKnown, Bool.and_eq_true] at hst
      simp [Stmt.notes, Expr.areKnown_notes h e hst.1.1, Expr.ty_of_isKnown hst.1.1,
        Stmt.areKnown_blockNotes h body returns hst.1.2,
        Stmt.areKnown_blockNotes h orElse returns hst.2]
  | «while» loc e body =>
    simp only [Stmt.isKnown, Bool.and_eq_true] at hst
    simp [Stmt.notes, Expr.areKnown_notes h e hst.1, Expr.ty_of_isKnown hst.1,
      Stmt.areKnown_blockNotes h body returns hst.2]
  | «repeat» loc count body =>
    simp only [Stmt.isKnown, Bool.and_eq_true] at hst
    have hcount := Expr.ty_of_isKnown hst.1
    have hput := isKnown_put hcount count.ty
    have hmore : (Ty.more count.ty).isKnown = true := by
      unfold Ty.more
      rw [if_neg]
      · rfl
      · intro hu
        rw [hu] at hcount
        cases hcount
    simpa [Stmt.notes, Expr.areKnown_notes h count hst.1,
      Stmt.areKnown_blockNotes h body returns hst.2, hmore, hcount] using hput
  | «for» loc init e update body =>
    simp only [Stmt.isKnown, Bool.and_eq_true] at hst
    simp [Stmt.notes, Stmt.areKnown_notes h init returns hst.1.1.1,
      Expr.areKnown_notes h e hst.1.1.2, Expr.ty_of_isKnown hst.1.1.2,
      Stmt.areKnown_notes h update returns hst.1.2, Stmt.areKnown_blockNotes h body returns hst.2]
  | «break» => exact areKnown_plain
  | «continue» => exact areKnown_plain
  | «return» loc value =>
    cases value with
    | none => exact areKnown_plain
    | some e =>
      have he : e.isKnown = true := hst
      simp only [Stmt.notes, areKnown_append]
      refine ⟨areKnown_widenedNotes h he _, ?_⟩
      simpa using isKnown_widenedTy (Expr.ty_of_isKnown he) returns
  | print loc values => exact areKnown_printNotes h hst
  | input loc x => simp [Stmt.notes]
  | expr loc e =>
    have he : e.isKnown = true := hst
    cases e with
    | call m f args =>
      simp only [Expr.isKnown, Bool.and_eq_true] at he
      rw [Stmt.notes]
      split
      · exact areKnown_nil
      · rename_i target params t hf
        have hargs := Expr.areKnown_argumentNotes h args params he.2
        simpa [hargs] using isKnown_passed (h.callee hf).1 he.2
    | _ => exact Expr.areKnown_notes h _ he
termination_by structural st

theorem Stmt.areKnown_blockNotes (h : SignaturesKnown sigs) (ss : List Stmt) :
    ∀ returns, Stmt.areKnown ss = true → AreKnown (Stmt.blockNotes sigs returns ss) := by
  intro returns hss
  cases ss with
  | nil => exact areKnown_nil
  | cons st ss =>
    obtain ⟨hst, hss⟩ := Bool.and_eq_true_iff.1 hss
    simp only [Stmt.blockNotes, areKnown_append]
    exact ⟨Stmt.areKnown_notes h st returns hst, Stmt.areKnown_blockNotes h ss returns hss⟩
termination_by structural ss

end

theorem areKnown_topNotes (h : SignaturesKnown sigs) {p : Program} (hp : Stmt.areKnown p = true) :
    AreKnown (p.topNotes sigs) := by
  induction p with
  | nil => exact areKnown_plain
  | cons st rest ih =>
    obtain ⟨hst, hrest⟩ := Bool.and_eq_true_iff.1 hp
    cases st with
    | function => exact ih hrest
    | _ =>
      simp only [Program.topNotes, areKnown_append]
      exact ⟨Stmt.areKnown_notes h _ .unknown hst, ih hrest⟩

theorem areKnown_regionNotes (h : SignaturesKnown sigs) {p : Program}
    (hp : Stmt.areKnown p = true) : AreKnown (p.regionNotes sigs) := by
  induction p with
  | nil => exact areKnown_nil
  | cons st rest ih =>
    obtain ⟨hst, hrest⟩ := Bool.and_eq_true_iff.1 hp
    cases st with
    | function loc f returns params body =>
      simp only [Stmt.isKnown, Bool.and_eq_true] at hst
      simp [Program.regionNotes, Stmt.areKnown_blockNotes h body returns hst.2, ih hrest]
    | _ => exact ih hrest

end

theorem signaturesKnown {p : Program} (hp : p.isKnown = true) :
    SignaturesKnown (Lowering.signatures p) := by
  induction p using List.reverseRecOn with
  | nil =>
    intro f s hs
    cases hs
  | append_singleton p st ih =>
    have hsplit : ∀ q : Program, Stmt.areKnown (q ++ [st]) = true →
        Stmt.areKnown q = true ∧ st.isKnown = true := by
      intro q hq
      induction q with
      | nil => exact ⟨rfl, (Bool.and_eq_true_iff.1 hq).1⟩
      | cons s q ih =>
        obtain ⟨hs, hq⟩ := Bool.and_eq_true_iff.1 hq
        obtain ⟨hq, hst⟩ := ih hq
        exact ⟨Bool.and_eq_true_iff.2 ⟨hs, hq⟩, hst⟩
    obtain ⟨hknown, hst⟩ := hsplit p hp
    have hbefore := ih hknown
    rw [Lowering.signatures, List.foldl_append, ← Lowering.signatures]
    cases st with
    | function loc g returns params body =>
      simp only [Stmt.isKnown, Bool.and_eq_true, List.all_eq_true] at hst
      intro f s hs
      rw [List.foldl_cons, List.foldl_nil, Store.get?_set] at hs
      split at hs
      · cases hs
        refine ⟨fun t ht => ?_, hst.1.1⟩
        obtain ⟨param, hparam, rfl⟩ := List.mem_map.1 ht
        exact (hst.1.2 param hparam).1
      · exact hbefore f s hs
    | _ => exact hbefore

/-- If nothing in a program is of unknown type, all types of what its code takes in are known. -/
theorem Program.isKnown_notes {p : Program} (hp : p.isKnown = true) : AreKnown p.notes := by
  rw [Program.notes, areKnown_append]
  have hsigs := signaturesKnown hp
  exact ⟨areKnown_topNotes hsigs hp, areKnown_regionNotes hsigs hp⟩

end NumericScript
