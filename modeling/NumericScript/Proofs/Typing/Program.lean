import NumericScript.Proofs.Lowering.Analysed
import NumericScript.Proofs.Typing.Run
import NumericScript.Proofs.Typing.Statement

/-! # Types along the code of programs

The code of an annotated program keeps to what is known along it: the statements at top level, and
the region of every function, which starts with what its parameters say.

* `Enters`: a function can be entered with arguments of the types of its parameters.
* `flows_top`, `flows_regions`: the parts of the code of a program.
* `ProgramTyped.known`: what is known of a run from its start on. -/

namespace NumericScript

open Lowering
open Analysis hiding State

namespace Analysis

section

variable {Γ' : Env} {k' : Nat}

/-- What is in sight at the end of a program was so before, but for the variables declared since. -/
theorem TopTyped.roots {globals : String → Option Ty} {p : Program} : ∀ {Γ : Env} {k : Nat},
    TopTyped Γ k p Γ' k' → Γ'.Roots globals → Γ.Roots globals := by
  induction p with
  | nil =>
    intro Γ k h hr
    cases h
    exact hr
  | cons st rest ih =>
    intro Γ k h hr
    cases h with
    | function hw hp hb h => exact ih h hr
    | cons hs h => exact hs.roots (ih h hr)

end

/-- The types of the global variables that are in sight. -/
def Env.globals (Γ : Env) (slot : String) : Option Ty :=
  match Γ.root.lookup slot with
  | some (.var b) => some b.ty
  | _ => none

theorem Env.roots_globals (Γ : Env) : Γ.Roots Γ.globals := by
  intro y b hy
  rw [Env.globals, hy]

end Analysis

namespace Typing

/-! ### Entering functions -/

/-- A function can be entered with arguments of some types, and then something is known. -/
structure Enters (shapes : Bool) (info : FunctionInfo) (params : List Ty) (returns : Ty)
    (T : Assertion) : Prop where
  arity : info.params.length = params.length
  value : info.returnsValue = decide (returns ≠ .void)
  args : T.args = []
  returned : T.returned = none
  returns : T.returns = returns
  frame : ∀ args returnAddress, List.Forall₂ (Ty.Has shapes) params args →
    FrameHas shapes T (Machine.callFrame info args returnAddress)

section

variable {shapes : Bool} {Γ' : Env} {k' : Nat}

/-- Variables hold values of the types that are known of them. -/
def Stored (shapes : Bool) (Γ : Env) (locals : Store String Value) : Prop :=
  ∀ slot t, Γ.locals slot = some t → ∃ v, locals.get? slot = some v ∧ t.Has shapes v

/-- The arguments of a call are stored in the variables of the parameters. -/
theorem stored_params {ps : List Param} : ∀ {Γ : Env} {k : Nat} {vars : List Variable}
    {args : List Value} {locals : Store String Value}, ParamsTyped Γ k ps Γ' k' →
    Γ.Slotted k → Γ.isGlobal = false → List.Forall₂ IsSlot ps vars →
    List.Forall₂ (Ty.Has shapes) (ps.map (·.ty)) args → Stored shapes Γ locals →
    Stored shapes Γ' ((vars.zip args).foldl (fun s p => s.set p.1.slot p.2) locals) := by
  induction ps with
  | nil =>
    intro Γ k vars args locals h _ _ hvars _ hstored
    cases h
    cases hvars
    exact hstored
  | cons p ps ih =>
    intro Γ k vars args locals h hslotted hlocal hvars hargs hstored
    cases h with
    | @cons _ Γ₁ _ _ k₁ _ _ _ hp hw hx hps =>
      rw [List.map_cons] at hargs
      cases hvars with
      | @cons _ x _ vars hslot hvars =>
        cases hargs with
        | @cons _ v _ args hv hargs =>
          obtain ⟨b, hb, rfl⟩ := hslot
          obtain rfl := Option.some.inj (hx.binding.symm.trans hb)
          rw [List.zip_cons_cons, List.foldl_cons]
          refine ih hps (hx.slotted hslotted) (hx.isGlobal.trans hlocal) hvars hargs ?_
          intro slot t ht
          rw [hx.locals_of_isLocal hlocal] at ht
          dsimp only at ht
          rw [Store.get?_set]
          change ∃ w, (if Γ.slot k p.name.text = slot then some v else _) = some w ∧ _
          by_cases hs : Γ.slot k p.name.text = slot
          · rw [if_pos hs] at ht ⊢
            cases ht
            exact ⟨v, rfl, hv⟩
          · rw [if_neg hs] at ht ⊢
            exact hstored slot t ht

theorem enters_function {Γ : Env} {k : Nat} {ps : List Param} {vars : List Variable}
    {returns : Ty} {f : String} {line : Nat} (hp : ParamsTyped Γ.enter k ps Γ' k')
    (hslotted : Γ.Slotted k) (hnone : ∀ slot, Γ.locals slot = none)
    (hvars : List.Forall₂ IsSlot ps vars) :
    Enters shapes ⟨f, .function f, vars, returns ≠ .void, line⟩ (ps.map (·.ty)) returns
      (within Γ' returns [] fun _ => none) where
  arity := by
    rw [List.length_map]
    exact hvars.length_eq.symm
  value := rfl
  args := rfl
  returned := rfl
  returns := rfl
  frame := by
    intro args returnAddress hargs
    have hstart : Stored shapes Γ.enter [] := by
      intro slot t ht
      rw [Γ.locals_enter, hnone] at ht
      cases ht
    refine ⟨?_, fun u c hc => by cases hc⟩
    exact stored_params hp hslotted.enter rfl hvars hargs hstart

end

/-! ### Parts of a program -/

section

variable {c : Context} {I : Interface} {Γ' : Env} {k' : Nat}

/-- The code of the statements at top level.  Behind it the machine has halted. -/
theorem flows_top (shapes : Bool) {p : Program} : ∀ {Γ : Env} {k : Nat} {s s' : State}
    {code : List Instr},
    TopCode c s p code s' → TopTyped Γ k p Γ' k' → Scoped c I Γ k → Γ'.Roots I.globals →
    c.loop = none → c.returns = .unknown →
    ∃ L, ∀ labels, LabelsAre labels s.labels s'.labels L → ∀ T,
      Flows shapes (I.withLabels labels) (within Γ c.returns [] fun _ => none) code
        (p.topNotes c.signatures) T := by
  induction p with
  | nil =>
    intro Γ k s s' code hcode _ _ _ _ _
    cases hcode
    exact ⟨fun _ => none, fun labels _ T => .one .halt⟩
  | cons st rest ih =>
    intro Γ k s s' code hcode htyped hΓ hr hloop hreturns
    cases htyped with
    | function hw hp hb htyped =>
      cases hcode with
      | function _ hcode =>
        have hk := Nat.le_trans hp.shadows_le (hb.shadows_le _)
        exact ih hcode htyped (hΓ.mono hk) hr hloop hreturns
      | cons hf => cases hf
    | @cons _ Γ₁ _ _ k₁ _ _ _ hs htyped =>
      have hplain := isFunction_of_stmtTyped hs
      cases hcode with
      | function hf =>
        rw [hf] at hplain
        cases hplain
      | @cons _ s₁ _ _ _ code codes _ hcs hcode =>
        have hroots := htyped.roots hr
        have hl₁ := StmtCode.labelled _ hcs
        have hl₂ := hcode.labelled
        have hst : Typed shapes I c s s₁ code (st.notes c.signatures c.returns) Γ Γ₁
            fun _ => none :=
          flows_stmt st hcs hs hΓ hroots (fun t ht => by cases ht) (fun u d hd => by cases hd)
        obtain ⟨L₁, hL₁⟩ := hst
        obtain ⟨L₂, hL₂⟩ := ih hcode htyped (hΓ.stmt hs hroots) hr hloop hreturns
        refine ⟨splitAt s₁.labels L₁ L₂, fun labels hls T => ?_⟩
        have hnotes : Program.topNotes c.signatures (st :: rest) =
            st.notes c.signatures c.returns ++ Program.topNotes c.signatures rest := by
          rw [hreturns]
          cases st <;> rfl
        have hjumps : Jumps shapes c labels (within Γ c.returns [] fun _ => none) := by
          intro loop hl
          rw [hloop] at hl
          cases hl
        rw [hnotes]
        exact (hL₁ labels (hls.left hl₂.labels) hjumps).append
          (hL₂ labels (hls.right hl₁.labels) T)

/-- The functions that a program declares can be entered. -/
def Entered (shapes : Bool) (p : Program) (infos : List FunctionInfo)
    (E : String → Option Assertion) : Prop :=
  ∀ f params returns, (f, Entry.function params returns) ∈ functionEntries p →
    ∃ info ∈ infos, info.name = f ∧ info.label = .function f ∧
      ∃ T, E f = some T ∧ Enters shapes info params returns T

theorem name_mem_of_entry {p : Program} {f : String} {params : List Ty} {returns : Ty}
    (h : (f, Entry.function params returns) ∈ functionEntries p) : f ∈ p.functionNames := by
  obtain ⟨st, hst, he⟩ := List.mem_filterMap.1 (List.mem_reverse.1 h)
  refine List.mem_filterMap.2 ⟨st, hst, ?_⟩
  cases st with
  | function loc g returns params body =>
    cases he
    rfl
  | _ => cases he

/-- What is known where the newest function begins. -/
theorem Entered.cons {shapes : Bool} {loc : Loc} {f : String} {returns : Ty} {params : List Param}
    {body : List Stmt} {rest : Program} {infos : List FunctionInfo} {info : FunctionInfo}
    {E : String → Option Assertion} {T : Assertion} (h : Entered shapes rest infos E)
    (hfresh : f ∉ rest.functionNames) (hname : info.name = f) (hlabel : info.label = .function f)
    (henters : Enters shapes info (params.map (·.ty)) returns T) :
    Entered shapes (.function loc f returns params body :: rest) (info :: infos)
      fun g => if g = f then some T else E g := by
  intro g params' returns' hg
  rw [functionEntries_cons] at hg
  rcases List.mem_append.1 hg with hlater | hown
  · obtain ⟨info', hinfo, hname', hlabel', T', hT, henters'⟩ := h g _ _ hlater
    refine ⟨info', List.mem_cons_of_mem _ hinfo, hname', hlabel', T', ?_, henters'⟩
    have hne : g ≠ f := by
      rintro rfl
      exact hfresh (name_mem_of_entry hlater)
    exact (if_neg hne).trans hT
  · obtain ⟨rfl, rfl, rfl⟩ : g = f ∧ params' = params.map (·.ty) ∧ returns' = returns := by
      simpa [functionEntries] using hown
    exact ⟨info, List.mem_cons_self, hname, hlabel, T, if_pos rfl, henters⟩

/-- The scope of the body of a function. -/
theorem Scoped.inFunction {Γ Γ₁ : Env} {k k₁ : Nat} {params : List Param} (h : Scoped c I Γ k)
    (hp : ParamsTyped Γ.enter k params Γ₁ k₁) (returns : Ty) :
    Scoped (c.inFunction returns) I Γ₁ k₁ where
  agrees := fun g => by
    rw [hp.callee?_eq]
    exact h.agrees g
  proper := hp.proper h.proper.enter
  slotted := hp.slotted h.slotted.enter
  roots := by
    intro y b hy
    rw [(hp.root_of_isLocal (Env.isGlobal_enter Γ)).1] at hy
    exact h.roots y b hy
  callees := by
    rw [hp.callee?_eq]
    exact h.callees

/-- The body of a function. -/
theorem typed_function (shapes : Bool) {Γ Γ₁ Γ₂ : Env} {k k₁ k₂ : Nat} {params : List Param}
    {returns : Ty} {body : List Stmt} {s s' : State} {code : List Instr} (h : Scoped c I Γ k)
    (hp : ParamsTyped Γ.enter k params Γ₁ k₁)
    (hb : BlockTyped ⟨some returns, false⟩ Γ₁ k₁ body Γ₂ k₂)
    (hcb : BlockCode (c.inFunction returns) s body code s') :
    Typed shapes I (c.inFunction returns) s s' code (Stmt.blockNotes c.signatures returns body)
      Γ₁ Γ₂ fun _ => none := by
  have hbody := h.inFunction hp returns
  have hafter : Γ₂.Roots I.globals := by
    intro y b hy
    have hlocal := (hp.root_of_isLocal (Env.isGlobal_enter Γ)).2
    rw [(hb.root_of_isLocal hlocal).1] at hy
    exact hbody.roots y b hy
  exact flows_block body hcb hb hbody hafter (fun t ht => by cases ht; rfl)
    (fun u d hd => by cases hd)

/-- The code of the regions of the functions.  Nothing is asked of what is known before it, since
what stands there is never followed by it. -/
theorem flows_regions (shapes : Bool) {p : Program} : ∀ {Γ : Env} {k : Nat} {s s' : State}
    {codes : List Instr} {infos : List FunctionInfo}, RegionsCode c s p codes infos s' →
    TopTyped Γ k p Γ' k' → Scoped c I Γ k → Γ'.Roots I.globals →
    (∀ slot, Γ.locals slot = none) → Γ.isGlobal = true → p.functionNames.Nodup →
    ∃ L E, Entered shapes p infos E ∧
      ∀ labels, LabelsAre labels s.labels s'.labels L →
        (∀ f ∈ p.functionNames, labels (.function f) = E f) → ∀ T, ∃ S,
        Flows shapes (I.withLabels labels) S codes (p.regionNotes c.signatures) T := by
  induction p with
  | nil =>
    intro Γ k s s' codes infos hcode _ _ _ _ _ _
    cases hcode
    refine ⟨fun _ => none, fun _ => none, ?_, fun labels _ _ T => ⟨T, .nil (.refl T)⟩⟩
    exact fun f params returns hf => absurd hf List.not_mem_nil
  | cons st rest ih =>
    intro Γ k s s' codes infos hcode htyped hΓ hr hnone hglobal hd
    cases htyped with
    | @function _ Γ₁ Γ₂ _ _ k₁ k₂ _ loc f returns params body _ hw hp hb htyped =>
      cases hcode with
      | @function _ s₁ _ _ _ _ _ vars _ _ code codes infos hvars hcb hcode =>
        obtain ⟨hfresh, hd⟩ := List.nodup_cons.1 hd
        have hk := Nat.le_trans hp.shadows_le (hb.shadows_le _)
        obtain ⟨L₁, hL₁⟩ := typed_function shapes hΓ hp hb hcb
        obtain ⟨L₂, E, hE, hL₂⟩ := ih hcode htyped (hΓ.mono hk) hr hnone hglobal hd
        have hl₁ := (BlockCode.labelled _ hcb).labels
        have hl₂ := hcode.labelled.labels
        let T₁ := within Γ₁ returns [] fun _ => none
        refine ⟨splitAt s₁.labels L₁ L₂, fun g => if g = f then some T₁ else E g,
          hE.cons hfresh rfl rfl (enters_function hp hΓ.slotted hnone hvars), ?_⟩
        intro labels hls hfunctions T
        have hentry : labels (.function f) = some T₁ :=
          (hfunctions f List.mem_cons_self).trans (if_pos rfl)
        have hothers : ∀ g ∈ Program.functionNames rest, labels (.function g) = E g := by
          intro g hg
          have hne : g ≠ f := by
            rintro rfl
            exact hfresh hg
          exact (hfunctions g (List.mem_cons_of_mem _ hg)).trans (if_neg hne)
        obtain ⟨S, hrest⟩ := hL₂ labels (hls.right hl₁) hothers T
        have henter := flows_label shapes (I.withLabels labels) (s.inLine loc.line) hentry
          (.refl T₁)
        have hbodyFlows := hL₁ labels (hls.left hl₂) (fun loop hl => by cases hl)
        have hleave : Flows shapes (I.withLabels labels) (within Γ₂ returns [] fun _ => none)
            [(s₁.inLine loc.line).instr (.return none)] [Note.plain] S := .one (.leave rfl)
        exact ⟨T₁, ((henter.append hbodyFlows).append hleave).append hrest⟩
      | other hf => cases hf
    | @cons _ Γ₁ _ _ k₁ _ _ _ hs htyped =>
      have hplain := isFunction_of_stmtTyped hs
      cases hcode with
      | function => cases hplain
      | other _ hcode =>
        have hnames : Program.functionNames (st :: rest) = Program.functionNames rest := by
          unfold Program.functionNames
          cases st <;> first | rfl | cases hplain
        have hentries : functionEntries (st :: rest) = functionEntries rest := by
          rw [functionEntries_cons, functionEntries_of_isFunction hplain, List.append_nil]
        have hnotes : Program.regionNotes c.signatures (st :: rest) =
            Program.regionNotes c.signatures rest := by
          cases st <;> first | rfl | cases hplain
        have hroots := htyped.roots hr
        have hlocals : Γ₁.locals = Γ.locals ∧ Γ₁.isGlobal = true := by
          cases hs with
          | decl hw hi ht hx =>
            exact ⟨hx.locals_of_isGlobal hglobal, hx.isGlobal.trans hglobal⟩
          | _ => exact ⟨rfl, hglobal⟩
        rw [hnames] at hd ⊢
        rw [hnotes]
        unfold Entered
        rw [hentries]
        exact ih hcode htyped (hΓ.stmt hs hroots) hr (by rw [hlocals.1]; exact hnone) hlocals.2 hd

end

/-! ### The code of a program -/

/-- What is known at the labels of a program. -/
def labelling (L : Nat → Option Assertion) (E : String → Option Assertion) :
    Label → Option Assertion
  | .local n => L n
  | .function f => E f

/-- When a run starts, nothing is known but that there are no values. -/
theorem holds_start {shapes : Bool} {I : Interface} {code : List Instr} {notes : List Note}
    {image : Image} {Γ : Env} {returns : Ty} (h : ∀ slot, Γ.locals slot = none) :
    Holds shapes I code notes image.start (within Γ returns [] fun _ => none) where
  globals := fun _ _ _ _ hv => by cases hv
  frame := by
    refine ⟨fun slot t ht => ?_, fun u c hc => by cases hc⟩
    have hnone : (within Γ returns [] fun _ => none).locals slot = none := h slot
    rw [hnone] at ht
    cases ht
  returned := fun t ht => by cases ht
  args := ⟨[], [], rfl, .nil, .top⟩

theorem labelsAre_labelling (L : Nat → Option Assertion) (E : String → Option Assertion)
    (lo hi : Nat) : LabelsAre (labelling L E) lo hi L := fun _ _ _ => rfl

end Typing

namespace Lowering

theorem RegionsCode.names {c : Context} {p : Program} {s s' : State} {codes : List Instr}
    {infos : List FunctionInfo} (h : RegionsCode c s p codes infos s') :
    infos.map (·.name) = p.functionNames := by
  induction h with
  | nil => rfl
  | function hp hb h ih => rw [List.map_cons, ih]; rfl
  | @other s s₁ st rest codes infos hf h ih =>
    rw [ih]
    cases st <;> first | rfl | cases hf

end Lowering

/-- Functions with distinct names are found. -/
theorem get?_functions {infos : List FunctionInfo} {s : Store String FunctionInfo}
    (hd : (infos.map (·.name)).Nodup) {info : FunctionInfo} (hi : info ∈ infos) :
    (infos.foldl (fun s f => s.set f.name f) s).get? info.name = some info := by
  have hother : ∀ (rest : List FunctionInfo) (s : Store String FunctionInfo) (name : String),
      name ∉ rest.map (·.name) →
      (rest.foldl (fun s f => s.set f.name f) s).get? name = s.get? name := by
    intro rest
    induction rest with
    | nil => exact fun _ _ _ => rfl
    | cons f rest ih =>
      intro s name hn
      rw [List.map_cons, List.mem_cons, not_or] at hn
      rw [List.foldl_cons, ih _ _ hn.2, Store.get?_set_of_ne _ _ (Ne.symm hn.1)]
  induction infos generalizing s with
  | nil => cases hi
  | cons f infos ih =>
    obtain ⟨hfresh, hd⟩ := List.nodup_cons.1 hd
    rw [List.foldl_cons]
    rcases List.mem_cons.1 hi with rfl | hi
    · rw [hother _ _ _ hfresh, Store.get?_set_self]
    · exact ih hd hi

namespace ProgramTyped

open Typing

variable {p : Program} {code : Code}

/-- What is known everywhere fits the code of a program, the global variables have the types with
which they are declared, and what is known of the start of a run holds there. -/
theorem known (shapes : Bool) (settings : MachineSettings) (h : ProgramTyped p)
    (hl : p.lower = .ok code) : ∃ I Γ k, TopTyped ⟨[], functionEntries p⟩ 0 p Γ k ∧
      I.globals = Γ.globals ∧
      Interface.Fits shapes I code.instrs p.notes (code.link settings) ∧
      ∀ lines, Typing.Known shapes I code.instrs p.notes
        ((code.link settings).startPoint lines) := by
  obtain ⟨top, regions, s₁, s₂, ht, hr, hcode⟩ := Program.exists_of_lower hl
  obtain ⟨Γ, k, htyped⟩ := h.top
  have hlinked := h.linked hl
  have hd := h.nodup_functionNames
  let Γ₀ : Env := ⟨[], functionEntries p⟩
  let I₀ : Interface := ⟨Γ.globals, fun _ => none, Γ₀.callee?⟩
  have hscoped : Scoped p.context I₀ Γ₀ 0 :=
    ⟨agrees_context p, htyped.proper, slotted_functionEntries p,
      htyped.roots Γ.roots_globals, rfl⟩
  obtain ⟨L₁, hL₁⟩ := flows_top shapes ht htyped hscoped Γ.roots_globals rfl rfl
  obtain ⟨L₂, E, hE, hL₂⟩ := flows_regions shapes hr htyped hscoped Γ.roots_globals
    (locals_functionEntries p) rfl hd
  let labels := labelling (splitAt s₁.labels L₁ L₂) E
  have hlabels : LabelsAre labels 0 s₂.labels (splitAt s₁.labels L₁ L₂) :=
    labelsAre_labelling _ _ _ _
  obtain ⟨S, hregions⟩ := hL₂ labels (hlabels.right (Nat.zero_le _)) (fun f _ => rfl)
    ⟨fun _ => none, fun _ => none, [], none, .unknown⟩
  have htop := hL₁ labels (hlabels.left hr.labelled.labels) S
  have hflows := htop.append hregions
  rw [← hcode] at hflows
  refine ⟨I₀.withLabels labels, Γ, k, htyped, rfl, ⟨rfl, ?_, ?_, ?_⟩, fun lines => ?_⟩
  · intro l n hn
    obtain ⟨i, hi, hil⟩ := (position_link hlinked.distinct).1 hn
    exact hflows.at_label hi hil
  · intro i hi l hil
    exact exists_position hlinked.distinct (hlinked.targets i hi l hil)
  · intro f params returns hf
    have hentry : (f, Entry.function params returns) ∈ functionEntries p := by
      have hcallee : Γ₀.callee? f = some (params, returns) := hf
      unfold Env.callee? at hcallee
      split at hcallee
      · rename_i hlookup
        cases hcallee
        exact mem_of_lookup hlookup
      · cases hcallee
    obtain ⟨info, hinfo, hname, hlabel, T, hT, henters⟩ := hE f params returns hentry
    have hnames : (code.functions.map (·.name)).Nodup := by
      rw [hr.names]
      exact hd
    refine ⟨info, ?_, henters.arity, henters.value, ?_, fun T' hT' => ?_⟩
    · rw [← hname]
      exact get?_functions hnames hinfo
    · exact exists_position hlinked.distinct (hlinked.entries info hinfo)
    · rw [hlabel] at hT'
      obtain rfl : T = T' := Option.some.inj (hT.symm.trans hT')
      exact ⟨henters.args, henters.returned, henters.returns, henters.frame⟩
  · exact ⟨_, ⟨_, hflows⟩, holds_start (locals_functionEntries p)⟩

end ProgramTyped

end NumericScript
