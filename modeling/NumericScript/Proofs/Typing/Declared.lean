import NumericScript.Proofs.Typing.Compiled
import NumericScript.Proofs.Typing.Present

/-! # Global variables before their declarations

The statements at top level are executed in their order, so at top level a global variable has a
value where it is in sight.  Functions can be called before the statements that declare the
variables which they use.  That is the only way in which a variable can be looked up that has no
value.

* `Program.declarations`: where in the code global variables get their first values.
* `Ordered`: the code of the statements at top level, in their order.
* `compile_initialized`: which variables have values wherever a run comes. -/

namespace NumericScript

open Lowering
open Analysis hiding State
open Machine (Goes)

/-! ### Declarations -/

namespace Program

/-- The global variables that a program declares whose code starts at position `k`, each with the
position of the instruction that gives it its first value. -/
def declarations (sigs : Store String Signature) : Program → Nat → List (String × Nat)
  | [], _ => []
  | st :: rest, k =>
    let later := declarations sigs rest (k + (st.notes sigs .unknown).length)
    match st with
    | .decl _ x _ init =>
      (x.binding.map fun b => (b.slot, k + (init.widenedNotes sigs b.ty).length)).toList ++ later
    | _ => later

variable {sigs : Store String Signature}

theorem declarations_of_isFunction {st : Stmt} (h : st.isFunction = true) (rest : Program)
    (k : Nat) : declarations sigs (st :: rest) k = declarations sigs rest k := by
  cases st <;> first | rfl | cases h

theorem le_of_mem_declarations {p : Program} {d : String × Nat} : ∀ {k : Nat},
    d ∈ declarations sigs p k → k ≤ d.2 := by
  induction p with
  | nil => exact fun h => by cases h
  | cons st rest ih =>
    intro k h
    have hlater : d ∈ declarations sigs rest (k + (st.notes sigs .unknown).length) → k ≤ d.2 :=
      fun h => Nat.le_trans (Nat.le_add_right _ _) (ih h)
    cases st with
    | decl loc x declared init =>
      rcases List.mem_append.1 h with h | h
      · obtain ⟨b, -, rfl⟩ := Option.map_eq_some_iff.1 (Option.mem_toList.1 h)
        exact Nat.le_add_right _ _
      · exact hlater h
    | _ => exact hlater h

end Program

namespace Typing

/-! ### The order of statements -/

/-- Code at position `k` that declares some global variables: what is looked up was in sight before
or is declared before, jumps do not lead past a declaration, every declaration gives its variable a
value, and only the last instruction ends the program. -/
structure Ordered (seen : String → Prop) (declared : List (String × Nat)) (k : Nat)
    (code : List Instr) : Prop where
  lookups : ∀ (x : Nat) (i : Instr), code[x]? = some i → ∀ slot,
    .place (.var ⟨slot, .global⟩) ∈ i.op.lookups →
    seen slot ∨ ∃ pos, (slot, pos) ∈ declared ∧ pos < k + x
  targets : ∀ (x : Nat) (i : Instr) l, code[x]? = some i → i.op.target? = some l →
    ∃ (y : Nat) (j : Instr), code[y]? = some j ∧ j.op.label? = some l ∧
      ∀ d ∈ declared, d.2 < k + y → d.2 < k + x
  values : ∀ d ∈ declared, ∃ (y : Nat) (i : Instr), d.2 = k + y ∧ code[y]? = some i ∧
    i.op.dest? = some (.var ⟨d.1, .global⟩)
  ends : ∀ (x : Nat) (i : Instr), code[x]? = some i → i.op ≠ .halt → x + 1 < code.length

/-- What is said of the code of one statement at top level. -/
structure OrderedStmt (seen : String → Prop) (declared : List (String × Nat)) (k : Nat)
    (code : List Instr) : Prop where
  lookups : ∀ i ∈ code, ∀ slot, .place (.var ⟨slot, .global⟩) ∈ i.op.lookups → seen slot
  targets : ∀ i ∈ code, ∀ l, i.op.target? = some l → l ∈ labelsIn code ∧ declared = []
  values : ∀ d ∈ declared, ∃ (y : Nat) (i : Instr), d.2 = k + y ∧ code[y]? = some i ∧
    i.op.dest? = some (.var ⟨d.1, .global⟩)

/-- The code of a statement before that of others. -/
theorem OrderedStmt.cons {seen seen' : String → Prop} {first later : List (String × Nat)} {k : Nat}
    {code codes : List Instr} (h : OrderedStmt seen first k code)
    (h' : Ordered seen' later (k + code.length) codes)
    (hseen : ∀ slot, seen' slot → seen slot ∨ ∃ pos, (slot, pos) ∈ first ∧ pos < k + code.length)
    (hlater : ∀ d ∈ later, k + code.length ≤ d.2) (hne : codes ≠ []) :
    Ordered seen (first ++ later) k (code ++ codes) where
  lookups := by
    intro x i hi slot hslot
    by_cases hx : x < code.length
    · rw [List.getElem?_append_left hx] at hi
      exact .inl (h.lookups i (List.mem_of_getElem? hi) slot hslot)
    · rw [List.getElem?_append_right (Nat.le_of_not_lt hx)] at hi
      rcases h'.lookups _ i hi slot hslot with hs | ⟨pos, hpos, hlt⟩
      · rcases hseen slot hs with hs | ⟨pos, hpos, hlt⟩
        · exact .inl hs
        · exact .inr ⟨pos, List.mem_append_left _ hpos, by omega⟩
      · exact .inr ⟨pos, List.mem_append_right _ hpos, by omega⟩
  targets := by
    intro x i l hi hl
    by_cases hx : x < code.length
    · rw [List.getElem?_append_left hx] at hi
      obtain ⟨hmem, hnil⟩ := h.targets i (List.mem_of_getElem? hi) l hl
      obtain ⟨j, hj, hjl⟩ := List.mem_filterMap.1 hmem
      obtain ⟨y, hy⟩ := List.mem_iff_getElem?.1 hj
      have hlt := (List.getElem?_eq_some_iff.1 hy).1
      refine ⟨y, j, by rw [List.getElem?_append_left hlt, hy], hjl, fun d hd hdy => ?_⟩
      rw [hnil, List.nil_append] at hd
      have := hlater d hd
      omega
    · rw [List.getElem?_append_right (Nat.le_of_not_lt hx)] at hi
      obtain ⟨y, j, hj, hjl, hbefore⟩ := h'.targets _ i l hi hl
      refine ⟨code.length + y, j, ?_, hjl, fun d hd hdy => ?_⟩
      · rw [List.getElem?_append_right (Nat.le_add_right _ _), Nat.add_sub_cancel_left, hj]
      · rcases List.mem_append.1 hd with hd | hd
        · obtain ⟨z, j', hz, hj', -⟩ := h.values d hd
          have := (List.getElem?_eq_some_iff.1 hj').1
          omega
        · have := hbefore d hd (by omega)
          omega
  values := by
    intro d hd
    rcases List.mem_append.1 hd with hd | hd
    · obtain ⟨y, i, hy, hi, hdest⟩ := h.values d hd
      have hlt := (List.getElem?_eq_some_iff.1 hi).1
      exact ⟨y, i, hy, by rw [List.getElem?_append_left hlt, hi], hdest⟩
    · obtain ⟨y, i, hy, hi, hdest⟩ := h'.values d hd
      refine ⟨code.length + y, i, by omega, ?_, hdest⟩
      rw [List.getElem?_append_right (Nat.le_add_right _ _), Nat.add_sub_cancel_left, hi]
  ends := by
    intro x i hi hne'
    rw [List.length_append]
    by_cases hx : x < code.length
    · have := List.length_pos_iff.2 hne
      omega
    · rw [List.getElem?_append_right (Nat.le_of_not_lt hx)] at hi
      have := h'.ends _ i hi hne'
      omega

section

variable {c : Context} {I : Interface} {Γ Γ' : Env} {k k' : Nat} {s s' : State} {code : List Instr}

/-- The code of a statement that declares nothing at top level. -/
theorem orderedStmt_of_stmtTyped {st : Stmt} (hcode : StmtCode c s st code s')
    (htyped : StmtTyped ⟨none, false⟩ Γ k st Γ k') (h : Scoped c I Γ k) (hloop : c.loop = none)
    (pos : Nat) : OrderedStmt (fun slot => (I.globals slot).isSome) [] pos code ∧
      code.length = (st.notes c.signatures c.returns).length := by
  obtain ⟨L, hL⟩ : Typed true I c s s' code (st.notes c.signatures c.returns) Γ Γ fun _ => none :=
    flows_stmt st hcode htyped h h.roots (fun t ht => by cases ht) (fun u d hd => by cases hd)
  have hflows := hL (labelling L fun _ => none) (labelsAre_labelling _ _ _ _) fun loop hl => by
    rw [hloop] at hl
    cases hl
  refine ⟨⟨fun i hi slot hslot => ?_, fun i hi l hl => ⟨?_, rfl⟩, nofun⟩, hflows.length_eq⟩
  · obtain ⟨U, hU⟩ := hflows.sees hi hslot
    cases hU with
    | global hg => exact Option.isSome_of_eq_some hg
  · have hmem := (StmtCode.labelled st hcode).targets i hi l hl
    have hexits : c.exits = [] := by rw [Context.exits, hloop]
    rwa [hexits, List.append_nil] at hmem

/-- The code of a declaration. -/
theorem orderedStmt_of_decl {loc : Loc} {x : Name} {declared found : Ty} {init : Expr} {b : Binding}
    (hcode : StmtCode c s (.decl loc x declared init) code s') (hi : ExprTyped Γ init found)
    (h : Scoped c I Γ k) (hb : x.binding = some b) (hglobal : b.storage = .global) (pos : Nat) :
    OrderedStmt (fun slot => (I.globals slot).isSome)
        [(b.slot, pos + (init.widenedNotes c.signatures b.ty).length)] pos code ∧
      code.length = (init.widenedNotes c.signatures b.ty).length + 1 := by
  cases hcode with
  | decl hv =>
    have hstraight := hv.supplied
    cases hv with
    | @mk _ _ b' _ code a hb' hwidened =>
      obtain rfl : b = b' := Option.some.inj (hb.symm.trans hb')
      obtain ⟨⟨τ, -, hflows, ho, -⟩, -⟩ :=
        evaluates_widened true .unknown (fun _ => none) h hwidened hi
      have hlength := hflows.length_eq
      refine ⟨⟨fun i hi' slot hslot => ?_, fun i hi' l hl => ?_, fun d hd => ?_⟩, ?_⟩
      · rcases List.mem_append.1 hi' with hi' | hi'
        · obtain ⟨U, hU⟩ := hflows.sees hi' hslot
          cases hU with
          | global hg => exact Option.isSome_of_eq_some hg
        · obtain rfl := List.mem_singleton.1 hi'
          cases ha : a with
          | const n =>
            rw [ha] at hslot
            cases hslot
          | place p =>
            rw [ha] at hslot ho
            have hsees : Sees I _ (.var ⟨slot, .global⟩) := ho.sees (List.mem_singleton.1 hslot)
            cases hsees with
            | global hg => exact Option.isSome_of_eq_some hg
          | returned =>
            rw [ha] at hslot
            cases List.mem_singleton.1 hslot
      · have hjump := (hstraight.straight i hi').1
        rw [Op.isStraight, hl] at hjump
        cases hjump
      · obtain rfl := List.mem_singleton.1 hd
        refine ⟨code.length, s'.instr (put (.var b.variable) a), by rw [hlength], by simp, ?_⟩
        have hvar : b.variable = ⟨b.slot, .global⟩ := by rw [Binding.variable, hglobal]
        rw [hvar]
        cases a <;> rfl
      · rw [List.length_append, hlength]
        rfl

/-- What is known where no labels matter. -/
def interface (Γ : Env) : Interface := ⟨Γ.globals, fun _ => none, Γ.callee?⟩

/-- A global variable that is in sight behind a declaration is the new one or was so before. -/
theorem globals_of_declares {x : Name} {t : Ty} (hx : Declares Γ k x t Γ' k')
    (hg : Γ.isGlobal = true) {slot : String} (h : (Γ'.globals slot).isSome) :
    slot = Γ.slot k x.text ∨ (Γ.globals slot).isSome := by
  have hinner : Γ.inner = [] := List.isEmpty_iff.1 hg
  have hslot : Γ.slot k x.text = x.text := by simp [Env.slot, Env.hides, hg]
  by_cases hs : slot = x.text
  · exact .inl (hs.trans hslot.symm)
  · refine .inr ?_
    have hlookup : Γ'.root.lookup slot = Γ.root.lookup slot := by
      rw [hx.env, Env.add, hinner]
      dsimp only
      rw [List.lookup_cons, beq_eq_false_iff_ne.2 hs]
    rwa [Env.globals, hlookup] at h

theorem ne_nil_of_topCode {p : Program} (h : TopCode c s p code s') : code ≠ [] := by
  induction h with
  | nil => exact List.cons_ne_nil _ _
  | function _ _ ih => exact ih
  | cons _ _ _ ih => exact List.append_ne_nil_of_right_ne_nil _ ih

/-- The code of the statements at top level is in their order, and the global variables in sight
behind them were in sight before or are declared by them. -/
theorem ordered_top {p : Program} : ∀ {Γ : Env} {k : Nat} {s s' : State} {code : List Instr}
    (pos : Nat), TopCode c s p code s' → TopTyped Γ k p Γ' k' → c.Agrees Γ → Γ.Proper →
    Γ.Slotted k → Γ.isGlobal = true → c.loop = none → c.returns = .unknown →
    Ordered (fun slot => (Γ.globals slot).isSome) (p.declarations c.signatures pos) pos code ∧
      ∀ slot, (Γ'.globals slot).isSome →
        (Γ.globals slot).isSome ∨ ∃ at', (slot, at') ∈ p.declarations c.signatures pos := by
  induction p with
  | nil =>
    intro Γ k s s' code pos hcode htyped _ _ _ _ _ _
    cases hcode
    cases htyped
    refine ⟨⟨fun x i hi slot hslot => ?_, fun x i l hi hl => ?_, nofun, fun x i hi hne => ?_⟩,
      fun slot h => .inl h⟩
    all_goals
      obtain ⟨hx, rfl⟩ := List.getElem?_eq_some_iff.1 hi
      obtain rfl : x = 0 := by simpa using hx
    · cases hslot
    · cases hl
    · exact absurd rfl hne
  | cons st rest ih =>
    intro Γ k s s' code pos hcode htyped hagrees hproper hslotted hglobal hloop hreturns
    cases htyped with
    | function hw hp hb htyped =>
      cases hcode with
      | function _ hcode =>
        have hk := Nat.le_trans hp.shadows_le (hb.shadows_le _)
        rw [Program.declarations_of_isFunction rfl]
        exact ih pos hcode htyped hagrees hproper (hslotted.mono hk) hglobal hloop hreturns
      | cons hf => cases hf
    | @cons _ Γ₁ _ _ k₁ _ _ _ hs htyped =>
      have hplain := isFunction_of_stmtTyped hs
      cases hcode with
      | function hf =>
        rw [hf] at hplain
        cases hplain
      | @cons _ s₁ _ _ _ code codes _ hcs hcode =>
        have hscoped : Scoped c (interface Γ) Γ k :=
          ⟨hagrees, hproper, hslotted, Γ.roots_globals, rfl⟩
        have hagrees₁ : c.Agrees Γ₁ := fun f => by rw [hs.callee?_eq]; exact hagrees f
        have hproper₁ := hs.proper hproper
        have hslotted₁ := hs.slotted hslotted (hs.shadows_le _)
        have hne := ne_nil_of_topCode hcode
        by_cases hd : ∃ loc x declared init, st = .decl loc x declared init
        · obtain ⟨loc, x, declared, init, rfl⟩ := hd
          cases hs with
          | @decl _ _ _ _ _ _ _ _ _ t _ hw hi ht hx =>
            have hglobal₁ : Γ₁.isGlobal = true := hx.isGlobal.trans hglobal
            have hstorage : Γ.storage = .global := by rw [Env.storage, if_pos hglobal]
            obtain ⟨hstmt, hlength⟩ := orderedStmt_of_decl hcs hi hscoped hx.binding hstorage pos
            obtain ⟨hrest, hcovers⟩ := ih (pos + code.length) hcode htyped hagrees₁ hproper₁
              hslotted₁ hglobal₁ hloop hreturns
            have hdeclared : Program.declarations c.signatures
                (.decl loc x declared init :: rest) pos =
                [(Γ.slot k x.text, pos + (init.widenedNotes c.signatures t).length)] ++
                  Program.declarations c.signatures rest (pos + code.length) := by
              have hnotes : (Stmt.notes c.signatures .unknown (.decl loc x declared init)).length =
                  code.length := by
                rw [hlength, Stmt.notes, Name.setNotes, ty_of_bound hx.binding, List.length_append]
                rfl
              rw [Program.declarations, hnotes, hx.binding]
              rfl
            rw [hdeclared]
            refine ⟨hstmt.cons hrest (fun slot h => ?_)
              (fun d hd => Program.le_of_mem_declarations hd) hne, fun slot h => ?_⟩
            · rcases globals_of_declares hx hglobal h with rfl | h
              · exact .inr ⟨_, List.mem_singleton_self _, by omega⟩
              · exact .inl h
            · rcases hcovers slot h with h | ⟨at', hat⟩
              · rcases globals_of_declares hx hglobal h with rfl | h
                · exact .inr ⟨_, List.mem_cons_self⟩
                · exact .inl h
              · exact .inr ⟨at', List.mem_cons_of_mem _ hat⟩
        · have hsame : Γ₁ = Γ := by
            cases hs with
            | decl => exact absurd ⟨_, _, _, _, rfl⟩ hd
            | _ => rfl
          subst hsame
          obtain ⟨hstmt, hlength⟩ := orderedStmt_of_stmtTyped hcs hs hscoped hloop pos
          obtain ⟨hrest, hcovers⟩ := ih (pos + code.length) hcode htyped hagrees₁ hproper₁
            hslotted₁ hglobal hloop hreturns
          have hdeclared : Program.declarations c.signatures (st :: rest) pos =
              [] ++ Program.declarations c.signatures rest (pos + code.length) := by
            rw [hreturns] at hlength
            rw [hlength]
            cases st with
            | decl => exact absurd ⟨_, _, _, _, rfl⟩ hd
            | _ => rfl
          rw [hdeclared]
          refine ⟨hstmt.cons hrest (fun slot h => .inl h)
            (fun d hd => Program.le_of_mem_declarations hd) hne, hcovers⟩

end

/-! ### Runs -/

section

variable {declared : List (String × Nat)} {seen : String → Prop} {top : List Instr}
  {m m' : Machine} {image : Image} {i : Instr}

/-- The position at top level at which a machine is: that of the next instruction, or of the call
that has not returned. -/
inductive TopAt (top : List Instr) (m : Machine) : Nat → Prop where
  | here (h : m.returns = []) : TopAt top m m.pc
  | call {x : Nat} {i : Instr} {f : Callee} {argc : Nat} (h : m.returns.getLast? = some (x + 1))
      (hi : top[x]? = some i) (hc : i.op = .call f argc) : TopAt top m x

/-- The variables that are declared before the position of the machine at top level have values. -/
def InOrder (declared : List (String × Nat)) (top : List Instr) (m : Machine) : Prop :=
  ∃ x, TopAt top m x ∧ x < top.length ∧
    ∀ d ∈ declared, d.2 < x → (m.globals.get? d.1).isSome

/-- Global variables keep their values. -/
theorem isSome_globals_write {d : Place} {v : Value} {slot : String}
    (h : (m.globals.get? slot).isSome) : ((m.write d v).globals.get? slot).isSome := by
  rcases d with u | ⟨slot', storage⟩
  · simpa [Machine.write] using h
  · cases storage with
    | global => exact isSome_get?_set h
    | «local» => simpa [Machine.write] using h

theorem isSome_globals_of_goes {op : Op} (h : Goes image m op m') {slot : String}
    (hs : (m.globals.get? slot).isSome) : (m'.globals.get? slot).isSome := by
  cases h with
  | write => exact isSome_globals_write hs
  | _ => exact hs

/-- At top level the machine goes on with the next instruction, behind a declaration only when it
has given its variable a value. -/
theorem InOrder.next (h : Ordered seen declared 0 top) {x : Nat}
    (hx : ∀ d ∈ declared, d.2 < x → (m'.globals.get? d.1).isSome) (hi : top[x]? = some i)
    (hne : i.op ≠ .halt) (hret : m'.returns = []) (hpc : m'.pc = x + 1)
    (hdest : ∀ slot, i.op.dest? = some (.var ⟨slot, .global⟩) → (m'.globals.get? slot).isSome) :
    InOrder declared top m' := by
  refine ⟨x + 1, hpc ▸ .here hret, h.ends x i hi hne, fun d hd hlt => ?_⟩
  by_cases hlt' : d.2 < x
  · exact hx d hd hlt'
  · obtain ⟨y, j, hy, hj, hjd⟩ := h.values d hd
    obtain rfl : y = x := by omega
    rw [hi] at hj
    cases hj
    exact hdest d.1 hjd

/-- The code of a program begins with that of its statements at top level. -/
structure Begins (image : Image) (top : List Instr) : Prop where
  instrs : ∀ (x : Nat) (i : Instr), top[x]? = some i → image.instrs[x]? = some i
  labels : ∀ (x : Nat) (i : Instr) l, top[x]? = some i → i.op.label? = some l →
    image.position l = .ok x

theorem Begins.getElem? (h : Begins image top) {x : Nat} (hx : x < top.length)
    (hi : image.instrs[x]? = some i) : top[x]? = some i := by
  have htop := List.getElem?_eq_getElem hx
  rw [h.instrs _ _ htop] at hi
  rw [htop, hi]

/-- Behind an operation at top level the variables that are declared before have values. -/
theorem InOrder.of_goes_here (hb : Begins image top) (h : Ordered seen declared 0 top)
    (hret : m.returns = []) (hx : ∀ d ∈ declared, d.2 < m.pc → (m.globals.get? d.1).isSome)
    (hi : top[m.pc]? = some i) {op : Op} (hop : i.op = op) (hgo : Goes image m op m') :
    InOrder declared top m' := by
  have hkept := fun d hd hlt => isSome_globals_of_goes hgo (hx d hd hlt)
  have hnext : i.op ≠ .halt → m'.returns = [] → m'.pc = m.pc + 1 →
      (∀ slot, i.op.dest? = some (.var ⟨slot, .global⟩) → (m'.globals.get? slot).isSome) →
      InOrder declared top m' := InOrder.next h hkept hi
  have hjump : ∀ l k, i.op.target? = some l → image.position l = .ok k →
      InOrder declared top { m with pc := k } := by
    intro l k hl hk
    obtain ⟨y, j, hj, hjl, hbefore⟩ := h.targets _ i l hi hl
    rw [hb.labels y j l hj hjl] at hk
    obtain rfl : y = k := Except.ok.inj hk
    refine ⟨y, .here hret, (List.getElem?_eq_some_iff.1 hj).1, fun d hd hlt => hx d hd ?_⟩
    have := hbefore d hd (by omega)
    omega
  subst hop
  generalize hop : i.op = op at hgo hnext hjump
  cases hgo with
  | @write _ d v he =>
    refine hnext (fun hh => by rw [hh] at he; cases he) ?_ ?_ fun slot hs => ?_
    · exact (Machine.returns_write m d v).trans hret
    · exact congrArg (· + 1) (Machine.pc_write m d v)
    · obtain rfl := dest?_of_effect he hs
      change ((m.globals.set slot v).get? slot).isSome
      simp
  | label => exact hnext (by simp) hret rfl (by simp [Op.dest?])
  | jump hk => exact hjump _ _ rfl hk
  | pass => exact hnext (by simp) hret rfl (by simp [Op.dest?])
  | branch _ hk => exact hjump _ _ rfl hk
  | param => exact hnext (by simp) hret rfl (by simp [Op.dest?])
  | builtin => exact hnext (by simp) hret rfl (by simp [Op.dest?])
  | print => exact hnext (by simp) hret rfl (by simp [Op.dest?])
  | @user name argc k f hlen hf harity hdepth hk =>
    refine ⟨m.pc, .call ?_ hi hop, (List.getElem?_eq_some_iff.1 hi).1, hx⟩
    change ((m.pc + 1) :: m.returns).getLast? = some (m.pc + 1)
    rw [hret]
    rfl
  | leave _ hc =>
    rw [Machine.returns, hc] at hret
    cases hret

/-- While a call at top level has not returned, no more variables are declared. -/
theorem InOrder.of_goes_call (h : Ordered seen declared 0 top) {x : Nat} {f : Callee} {argc : Nat}
    (hret : m.returns.getLast? = some (x + 1)) (hi : top[x]? = some i) (hc : i.op = .call f argc)
    (hx : ∀ d ∈ declared, d.2 < x → (m.globals.get? d.1).isSome) {op : Op}
    (hgo : Goes image m op m') : InOrder declared top m' := by
  have hkept := fun d hd hlt => isSome_globals_of_goes hgo (hx d hd hlt)
  have hstay : m'.returns = m.returns → InOrder declared top m' := fun hsame =>
    ⟨x, .call (hsame ▸ hret) hi hc, (List.getElem?_eq_some_iff.1 hi).1, hkept⟩
  cases hgo with
  | @write _ d v he => exact hstay (Machine.returns_write m d v)
  | @user name argc k f hlen hf harity hdepth hk =>
    refine ⟨x, .call ?_ hi hc, (List.getElem?_eq_some_iff.1 hi).1, hx⟩
    change ((m.pc + 1) :: m.returns).getLast? = some (x + 1)
    rw [List.getLast?_cons, hret]
    rfl
  | @leave o v f fs _ hcalls =>
    have hreturns : m.returns = f.returnAddress :: fs.map (·.returnAddress) := by
      rw [Machine.returns, hcalls]
      rfl
    rw [hreturns] at hret
    cases hfs : fs with
    | nil =>
      subst hfs
      have hpc : f.returnAddress = x + 1 := by simpa using hret
      exact .next h hkept hi (by simp [hc]) rfl hpc (by simp [hc, Op.dest?])
    | cons g gs =>
      subst hfs
      refine ⟨x, .call ?_ hi hc, (List.getElem?_eq_some_iff.1 hi).1, hkept⟩
      rwa [List.map_cons, List.getLast?_cons_cons] at hret
  | _ => exact hstay rfl

/-- From step to step, the variables that are declared before the position at top level have
values. -/
theorem InOrder.advance (hb : Begins image top) (h : Ordered seen declared 0 top) {p q : Point}
    (hp : InOrder declared top p.machine) (hadv : image.advance p = .next q) :
    InOrder declared top q.machine := by
  obtain ⟨i, hi, hstep⟩ := Image.advance_eq_next hadv
  obtain ⟨x, hat, hlt, hset⟩ := hp
  cases hat with
  | here hret =>
    have htop := hb.getElem? hlt hi
    rcases hstep with ⟨hl, rfl⟩ | ⟨m', hgo, rfl⟩ | ⟨d, ty, line, rest, v, hd, -, -, rfl⟩
    · obtain ⟨l, hl⟩ := Option.isSome_iff_exists.1 hl
      have hop : i.op = .label l := by
        cases hop : i.op <;> rw [hop] at hl <;> cases hl
        rfl
      have hgo : Goes image p.machine (.label l) p.machine.next := .label
      exact .of_goes_here hb h hret hset htop hop hgo
    · have hret' := (Machine.returns_noted p.machine i.line).trans hret
      rw [← Machine.globals_noted p.machine i.line] at hset
      rw [← Machine.pc_noted p.machine i.line] at hset htop
      exact .of_goes_here hb h hret' hset htop rfl hgo
    · refine .next h (fun e he hlt => ?_) htop (by simp [hd]) ?_ ?_ fun slot hs => ?_
      · refine isSome_globals_write ?_
        rw [Machine.globals_noted]
        exact hset e he hlt
      · exact ((Machine.returns_write _ d v).trans (Machine.returns_noted _ _)).trans hret
      · exact congrArg (· + 1) ((Machine.pc_write _ d v).trans (Machine.pc_noted _ _))
      · rw [hd] at hs
        cases hs
        change (((p.machine.noted i.line).globals.set slot v).get? slot).isSome
        simp
  | call hret htop hc =>
    rcases hstep with ⟨-, rfl⟩ | ⟨m', hgo, rfl⟩ | ⟨d, ty, line, rest, v, -, -, -, rfl⟩
    · exact ⟨x, .call hret htop hc, hlt, hset⟩
    · rw [← Machine.returns_noted p.machine i.line] at hret
      rw [← Machine.globals_noted p.machine i.line] at hset
      exact .of_goes_call h hret htop hc hset hgo
    · refine ⟨x, .call ?_ htop hc, hlt, fun e he hlt => isSome_globals_write ?_⟩
      · rw [← hret, ← Machine.returns_noted p.machine i.line]
        exact congrArg List.getLast? (Machine.returns_write _ d v)
      · rw [Machine.globals_noted]
        exact hset e he hlt

theorem InOrder.of_reaches (hb : Begins image top) (h : Ordered seen declared 0 top)
    {p q : Point} (hp : InOrder declared top p.machine) (hq : image.Reaches p q) :
    InOrder declared top q.machine := by
  induction hq with
  | refl => exact hp
  | tail _ hadv ih => exact ih.advance hb h hadv

end

/-- No variable is in sight when a run starts. -/
theorem globals_functionEntries (p : Program) (slot : String) :
    (⟨[], functionEntries p⟩ : Env).globals slot = none := by
  unfold Env.globals
  split
  · rename_i b hb
    obtain ⟨params, returns, he⟩ := exists_of_mem_functionEntries (mem_of_lookup hb)
    cases he
  · rfl

theorem Suspended.waiting {shapes : Bool} {I : Interface} {code : List Instr} {notes : List Note}
    {returns : Ty} {calls : List Frame} {main : Frame} {args : List Value}
    (h : Suspended shapes I code notes returns calls main args) :
    Waiting shapes I code notes calls main := by
  induction h with
  | top => exact .top
  | call hat _ hframe _ _ ih =>
    refine .call hat ⟨fun slot t ht => ?_, fun u c hc => ?_⟩ ih
    · obtain ⟨v, hv, -⟩ := hframe.locals slot t ht
      exact Option.isSome_of_eq_some hv
    · obtain ⟨v, hv, -⟩ := hframe.temps u c hc
      exact Option.isSome_of_eq_some hv

/-- What is of a known type is there. -/
theorem Known.standing {shapes : Bool} {I : Interface} {code : List Instr} {notes : List Note}
    {p : Point} (h : Known shapes I code notes p) : Standing shapes I code notes p := by
  obtain ⟨S, hat, hm⟩ := h
  obtain ⟨own, rest, -, -, hcalls⟩ := hm.args
  refine ⟨S, hat, ⟨fun slot t ht => ?_, fun u c hc => ?_⟩, hcalls.waiting⟩
  · obtain ⟨v, hv, -⟩ := hm.frame.locals slot t ht
    exact Option.isSome_of_eq_some hv
  · obtain ⟨v, hv, -⟩ := hm.frame.temps u c hc
    exact Option.isSome_of_eq_some hv

end Typing

open Typing

/-! ### Uses of variables -/

/-- If a place is a global variable, its declaration was executed: it stands before the position of
the machine at top level. -/
def IsDeclared (p : Program) (q : Point) (d : Place) : Prop :=
  ∀ slot, d = .var ⟨slot, .global⟩ → ∃ pos, (slot, pos) ∈ p.declarations (signatures p) 0 ∧
    pos < q.machine.returns.getLast?.getD q.machine.pc

/-- A place is a global variable, and the call at top level that has not returned stands before the
instruction that gives it its first value. -/
def IsEarly (p : Program) (code : List Instr) (q : Point) (d : Place) : Prop :=
  ∃ slot pos i r, d = .var ⟨slot, .global⟩ ∧ (slot, pos) ∈ p.declarations (signatures p) 0 ∧
    code[pos]? = some i ∧ i.op.dest? = some d ∧ q.machine.returns.getLast? = some r ∧ r ≤ pos

/-- In the code of a program that analysis accepts, what is looked up has a value, and was declared
before; or it is a global variable that is used in a function which was called too early. -/
theorem ProgramTyped.initialized {p : Program} {code : Code} (h : ProgramTyped p)
    (hl : p.lower = .ok code) (settings : MachineSettings) {lines : List String} {q : Point}
    (hq : (code.link settings).Reaches ((code.link settings).startPoint lines) q) {i : Instr}
    (hi : code.instrs[q.machine.pc]? = some i) {d : Place} (hd : .place d ∈ i.op.lookups) :
    (q.machine.read? d).isSome ∧ IsDeclared p q d ∨ IsEarly p code.instrs q d := by
  obtain ⟨I, Γ, k, htyped, hglobals, hfits, hstart⟩ := h.known true settings hl
  obtain ⟨top, regions, s₁, s₂, ht, hr, hcode⟩ := Program.exists_of_lower hl
  obtain ⟨hordered, hcovers⟩ := ordered_top 0 ht htyped (agrees_context p) htyped.proper
    (slotted_functionEntries p) rfl rfl rfl
  have hnone : ∀ slot, ¬ ((⟨[], functionEntries p⟩ : Env).globals slot).isSome :=
    fun slot => by simp [globals_functionEntries]
  have hbegins : Begins (code.link settings) top := by
    have hinstrs : ∀ (x : Nat) (i : Instr), top[x]? = some i → code.instrs[x]? = some i := by
      intro x i hi
      rw [hcode, List.getElem?_append_left (List.getElem?_eq_some_iff.1 hi).1, hi]
    refine ⟨fun x i hi => ?_, fun x i l hi hil => ?_⟩
    · rw [Code.link, List.getElem?_toArray]
      exact hinstrs x i hi
    · exact (position_link (h.linked hl).distinct).2 ⟨i, hinstrs x i hi, hil⟩
  have hinOrder : InOrder (p.declarations (signatures p) 0) top q.machine := by
    refine .of_reaches hbegins hordered ⟨0, .here rfl, ?_, fun d _ hlt => ?_⟩ hq
    · exact List.length_pos_iff.2 (ne_nil_of_topCode ht)
    · exact absurd hlt (Nat.not_lt_zero _)
  obtain ⟨S, hat, hm⟩ := (hstart lines).standing.of_reaches hfits hq
  obtain ⟨n, S₁, S₂, hn, hS, hop, -⟩ := hat.next hi
  have hpresent := hm.of_entails hS
  cases hop.sees hd with
  | @temp u c hu => exact .inl ⟨hpresent.frame.temps u c hu, by rintro _ ⟨⟩⟩
  | @«local» slot t hs => exact .inl ⟨hpresent.frame.locals slot t hs, by rintro _ ⟨⟩⟩
  | @global slot t hg =>
    obtain ⟨x, htop, hlt, hset⟩ := hinOrder
    cases htop with
    | here hret =>
      have himage : (code.link settings).instrs[q.machine.pc]? = some i := by
        rwa [Code.link, List.getElem?_toArray]
      obtain ⟨pos, hpos, hbefore⟩ := (hordered.lookups _ i (hbegins.getElem? hlt himage) slot
        hd).resolve_left (hnone slot)
      refine .inl ⟨hset _ hpos (by omega), ?_⟩
      rintro _ ⟨⟩
      exact ⟨pos, hpos, by rw [hret]; simpa using hbefore⟩
    | @call _ j f argc hret hj hcall =>
      obtain ⟨pos, hpos⟩ := (hcovers slot (by rw [← hglobals, hg]; rfl)).resolve_left (hnone slot)
      obtain ⟨y, i', hy, hi', hdest⟩ := hordered.values _ hpos
      obtain rfl : pos = y := by simpa using hy
      by_cases hle : x + 1 ≤ pos
      · refine .inr ⟨slot, pos, i', x + 1, rfl, hpos, ?_, hdest, hret, hle⟩
        rw [hcode, List.getElem?_append_left (List.getElem?_eq_some_iff.1 hi').1, hi']
      · have hne : pos ≠ x := by
          rintro rfl
          rw [hj] at hi'
          cases hi'
          rw [hcall] at hdest
          cases hdest
        refine .inl ⟨hset _ hpos (by omega), ?_⟩
        rintro _ ⟨⟩
        exact ⟨pos, hpos, by rw [hret]; exact Nat.lt_of_not_le hle⟩

/-- Where a run faults for want of a value, a place is looked up that has none. -/
theorem Image.Faults.exists_unset {image : Image} {q : Point} {name : String}
    (hf : image.Faults q (.undefinedVariable name)) :
    ∃ i d, image.instrs[q.machine.pc]? = some i ∧ .place d ∈ i.op.lookups ∧
      q.machine.read? d = none ∧ name = d.text := by
  cases hf with
  | input _ _ hv => cases OfValues.ofInput _ _ _ hv
  | step hstep =>
    obtain ⟨limit, hlimit⟩ | ⟨i, hi, hblames⟩ := Machine.blames_of_step hstep
    · cases hlimit
    generalize hop : i.op = op at hblames
    generalize hfault : Fault.undefinedVariable name = f at hblames
    cases hblames with
    | values hvalues => subst hfault; cases hvalues
    | @place _ d hd hnone =>
      rw [Machine.read?_noted] at hnone
      exact ⟨i, d, hi, hop ▸ hd, hnone, by cases hfault; rfl⟩
    | target _ hl | entry _ hl =>
      subst hfault
      unfold Image.position at hl
      split at hl <;> cases hl
    | overflow | function | depth | result => cases hfault

/-- A run of the raw code of what compiles faults for want of a value only where a global variable
is used too early. -/
theorem Image.Faults.early {p : Program} {code : Code} {settings : MachineSettings} {q : Point}
    {name : String} (hf : (code.link settings).Faults q (.undefinedVariable name))
    (h : ∀ i d, code.instrs[q.machine.pc]? = some i → .place d ∈ i.op.lookups →
      (q.machine.read? d).isSome ∧ IsDeclared p q d ∨ IsEarly p code.instrs q d) :
    ∃ d, name = d.text ∧ IsEarly p code.instrs q d := by
  obtain ⟨i, d, hi, hd, hnone, hname⟩ := hf.exists_unset
  rw [Code.link, List.getElem?_toArray] at hi
  rcases h i d hi hd with ⟨hsome, -⟩ | hearly
  · rw [hnone] at hsome
    cases hsome
  · exact ⟨d, hname, hearly⟩

/-- Wherever a run of the raw code of what compiles comes, whatever is looked up has a value and, if
it is a global variable, was declared before.  The only exception is a global variable that is used
in a function while a call at top level has not returned that stands before the declaration of the
variable, or in it.  Only there the run faults for want of a value. -/
theorem compile_initialized (source : String) (settings : Settings)
    (hs : (compile source settings).succeeded = true) :
    ∃ p raw, (compile source settings).analysis.map (·.program) = some p ∧
      (compile source settings).code = some raw ∧
      ∀ lines q,
        (raw.link settings.machine).Reaches ((raw.link settings.machine).startPoint lines) q →
        (∀ i d, raw.instrs[q.machine.pc]? = some i → .place d ∈ i.op.lookups →
          (q.machine.read? d).isSome ∧ IsDeclared p q d ∨ IsEarly p raw.instrs q d) ∧
        ∀ name, (raw.link settings.machine).Faults q (.undefinedVariable name) →
          ∃ d, name = d.text ∧ IsEarly p raw.instrs q d := by
  obtain ⟨p, raw, hp, hl, hprogram, hraw, -⟩ := exists_program_of_succeeded hs
  refine ⟨p, raw, hprogram, hraw, fun lines q hq => ?_⟩
  have hused := fun i d hi hd => hp.initialized hl settings.machine hq (i := i) (d := d) hi hd
  exact ⟨hused, fun name hf => hf.early hused⟩

/-- A function uses a variable and is called when it is declared. -/
theorem compile_initialized_late : ∃ p raw,
    (compile "int x = 5\nfunction void f():\n    print x\nend\nf()\n" {}).analysis.map
      (·.program) = some p ∧
    (compile "int x = 5\nfunction void f():\n    print x\nend\nf()\n" {}).code = some raw ∧
    p.declarations (signatures p) 0 = [("x", 0)] ∧
    ∀ lines q, (raw.link {}).Reaches ((raw.link {}).startPoint lines) q →
      ∀ i d, raw.instrs[q.machine.pc]? = some i → .place d ∈ i.op.lookups →
        (q.machine.read? d).isSome ∧ IsDeclared p q d ∨ IsEarly p raw.instrs q d := by
  let source := "int x = 5\nfunction void f():\n    print x\nend\nf()\n"
  have hs : (compile source {}).succeeded = true := by decide +kernel
  have hdeclared : ((compile source {}).analysis.map (·.program)).map
      (fun p => p.declarations (signatures p) 0) = some [("x", 0)] := by decide +kernel
  obtain ⟨p, raw, hp, hraw, hinitialized⟩ := compile_initialized source {} hs
  rw [hp] at hdeclared
  exact ⟨p, raw, hp, hraw, Option.some.inj hdeclared,
    fun lines q hq => (hinitialized lines q hq).1⟩

/-- A function that uses a variable is called before the variable is declared. -/
theorem not_compile_initialized_early : ¬ ∀ source settings raw,
    (compile source settings).succeeded = true → (compile source settings).code = some raw →
    ∀ lines q name, (raw.link settings.machine).Reaches
      ((raw.link settings.machine).startPoint lines) q →
      ¬ (raw.link settings.machine).Faults q (.undefinedVariable name) := by
  intro h
  let source := "f()\nint x = 5\nfunction void f():\n    print x\nend\n"
  have hs : (compile source {}).succeeded = true := by decide +kernel
  obtain ⟨p, raw, -, -, -, hraw, -⟩ := exists_program_of_succeeded hs
  have hfault : ((compile source {}).code.bind fun c =>
      ((c.link {}).after 2 ((c.link {}).startPoint [])).map fun q =>
        match q.machine.step (c.link {}) with
        | .faulted _ f => decide (f = .undefinedVariable "x")
        | _ => false) = some true := by decide +kernel
  rw [hraw] at hfault
  obtain ⟨q, hq, hqfault⟩ := Option.map_eq_some_iff.1 hfault
  split at hqfault
  · rename_i m f hstep
    rw [of_decide_eq_true hqfault] at hstep
    exact h source {} raw hs hraw [] q "x" (Image.reaches_of_after hq) (.step hstep)
  · cases hqfault

end NumericScript
