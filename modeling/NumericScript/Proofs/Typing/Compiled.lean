import NumericScript.Proofs.Optimize.Compiled
import NumericScript.Proofs.Typing.Known
import NumericScript.Proofs.Typing.Program

/-! # Types at run time

What the raw code of a compiled program takes in and gives is of the types that are written in the
program.  Code that is lowered does not ask for the types of values.  Where the static type of a
value leaves something open and the value is moved to a place that is not open, it is up to the
program that the value is one for the place; what is known holds as long as it does.

* `compile_keeps`: what is read and computed is of the types that are written there.
* `compile_sound`: programs in which nothing is unknown do not fault for want of a type. -/

namespace NumericScript

open Analysis Typing

/-! ### Runs -/

namespace Image

variable {image : Image} {p q : Point}

theorem Reaches.reachesBy {P : Point → Prop} (h : image.Reaches p q) (hP : ∀ r, P r) :
    image.ReachesBy P p q := by
  induction h with
  | refl => exact .refl
  | tail _ hadv ih => exact .tail ih (hP _) hadv

/-- Where a run is after some steps, if it goes on for so long. -/
def after (image : Image) : Nat → Point → Option Point
  | 0, p => some p
  | n + 1, p =>
    match image.advance p with
    | .next q => image.after n q
    | .done _ => none

theorem reaches_of_after {n : Nat} (h : image.after n p = some q) : image.Reaches p q := by
  induction n generalizing p with
  | zero =>
    cases h
    exact .refl
  | succ n ih =>
    unfold after at h
    split at h
    · rename_i r hadv
      exact (ih h).head hadv
    · cases h

end Image

/-! ### Open values -/

/-- Where nothing that is taken in is open, there is nothing to uphold. -/
theorem Note.upheld_of_not_isOpen {shapes : Bool} {n : Note} {m : Machine} {op : Op}
    (h : ∀ t ∈ n.reads, t.isOpen shapes = false) : n.Upheld shapes m op := by
  intro o found t v _ hr _ hopen _
  rw [h found (List.mem_of_getLast? hr)] at hopen
  cases hopen

theorem nextIs_upheld {shapes : Bool} {code : List Instr} {notes : List Note}
    (h : ∀ n ∈ notes, ∀ t ∈ n.reads, t.isOpen shapes = false) (r : Point) :
    NextIs code notes (Note.Upheld shapes) r :=
  fun _ _ _ hn => Note.upheld_of_not_isOpen (h _ (List.mem_of_getElem? hn))

/-! ### Global variables -/

/-- The global variables that are declared at top level have the types of their declarations. -/
theorem Analysis.TopTyped.globals_of_mem {globals : String → Option Ty} {p : Program} {Γ' : Env}
    {k' : Nat} : ∀ {Γ : Env} {k : Nat}, TopTyped Γ k p Γ' k' → Γ.isGlobal = true →
    Γ'.Roots globals → ∀ loc x declared init b, .decl loc x declared init ∈ p →
    x.binding = some b → globals b.slot = some b.ty := by
  induction p with
  | nil => exact fun _ _ _ _ _ _ _ _ hd => absurd hd List.not_mem_nil
  | cons st rest ih =>
    intro Γ k h hg hr loc x declared init b hd hb
    cases h with
    | function hw hp hbody h =>
      rcases List.mem_cons.1 hd with hd | hd
      · cases hd
      · exact ih h hg hr loc x declared init b hd hb
    | @cons _ Γ₁ _ _ _ _ _ _ hs h =>
      rcases List.mem_cons.1 hd with rfl | hd
      · cases hs with
        | decl hw hi ht hx =>
          rw [hx.binding] at hb
          cases hb
          exact hx.roots_slot hg (h.roots hr)
      · have hg₁ : Γ₁.isGlobal = true := by
          cases hs with
          | decl hw hi ht hx => exact hx.isGlobal.trans hg
          | _ => exact hg
        exact ih h hg₁ hr loc x declared init b hd hb

/-- Global variables that have a value have one of the type of their declaration. -/
def GlobalsHave (shapes : Bool) (p : Program) (m : Machine) : Prop :=
  ∀ loc x declared init b, .decl loc x declared init ∈ p → x.binding = some b →
    ∀ v, m.globals.get? b.slot = some v → b.ty.Has shapes v

/-- What is said of a point of a run of the code of a program: what the next instruction takes in
and gives is of the types that are written in the program, and so are the global variables. -/
structure WellTyped (shapes : Bool) (p : Program) (code : List Instr) (q : Point) : Prop where
  noted : ∀ i, code[q.machine.pc]? = some i → ∃ n, p.notes[q.machine.pc]? = some n
  next : NextIs code p.notes (Note.Keeps shapes) q
  globals : GlobalsHave shapes p q.machine

/-- The code of a program that analysis accepts keeps to the types that are written in it. -/
theorem ProgramTyped.wellTyped {p : Program} {code : Code} (shapes : Bool)
    (settings : MachineSettings) (h : ProgramTyped p) (hl : p.lower = .ok code)
    {lines : List String} {q : Point} (hq : (code.link settings).ReachesBy
      (NextIs code.instrs p.notes (Note.Upheld shapes)) ((code.link settings).startPoint lines) q) :
    WellTyped shapes p code.instrs q := by
  obtain ⟨I, Γ, k, htop, hglobals, hfits, hstart⟩ := h.known shapes settings hl
  have hknown := (hstart lines).of_reachesBy hfits hq
  refine ⟨fun i hi => hknown.noted hi, hknown.keeps, fun loc x declared init b hd hb v hv => ?_⟩
  obtain ⟨S, -, hm⟩ := hknown
  refine hm.globals _ _ v ?_ hv
  rw [hglobals]
  exact htop.globals_of_mem rfl Γ.roots_globals loc x declared init b hd hb

/-- A fault at a point is one that its note allows. -/
def FaultAllowed (shapes : Bool) (p : Program) (code : List Instr) (q : Point) (f : Fault) : Prop :=
  ∃ i n, code[q.machine.pc]? = some i ∧ p.notes[q.machine.pc]? = some n ∧
    n.Allows shapes q.machine i.op f

/-- If nothing in a program is of unknown type, its code faults only in ways that types cannot
exclude. -/
theorem ProgramTyped.faultAllowed {p : Program} {code : Code} (shapes : Bool)
    (settings : MachineSettings) (h : ProgramTyped p) (hl : p.lower = .ok code)
    (hk : p.isKnown = true) {lines : List String} {q : Point}
    (hq : (code.link settings).ReachesBy (NextIs code.instrs p.notes (Note.Upheld shapes))
      ((code.link settings).startPoint lines) q)
    {f : Fault} (hf : (code.link settings).Faults q f) :
    FaultAllowed shapes p code.instrs q f := by
  obtain ⟨I, Γ, k, -, -, hfits, hstart⟩ := h.known shapes settings hl
  have hknown := (hstart lines).of_reachesBy hfits hq
  exact hknown.allows hfits (Program.isKnown_notes hk) hf

/-- A program in which nothing is of unknown type upholds all kinds of values. -/
theorem Program.upheld_of_isKnown {p : Program} (hk : p.isKnown = true) (code : List Instr)
    (r : Point) : NextIs code p.notes (Note.Upheld false) r :=
  nextIs_upheld (fun n hn t ht => Ty.not_isOpen_of_isKnown (Program.isKnown_notes hk n hn t ht)) r

/-- If nothing in a program that analysis accepts is of unknown type, then it is lowered, and along
every run of its raw code every value that is read or computed is of the type that is written in
the program, and the run does not fault for want of a type, but for that a global variable may have
no value yet.  As long as every matrix that was moved although its shape is not known was of the
shape that is known at the place to which it was moved, matrices have the shapes that are known of
them, and the run does not fault because two known shapes do not go together. -/
theorem compile_sound (source : String) (settings : Settings) {a : Analysis}
    (ha : (compile source settings).analysis = some a) (hclean : Clean a.reports)
    (hk : a.program.isKnown = true) :
    ∃ raw, (compile source settings).code = some raw ∧ ∀ lines q,
      ((raw.link settings.machine).Reaches ((raw.link settings.machine).startPoint lines) q →
        WellTyped false a.program raw.instrs q ∧
          ∀ f, (raw.link settings.machine).Faults q f →
            FaultAllowed false a.program raw.instrs q f) ∧
      ((raw.link settings.machine).ReachesBy (NextIs raw.instrs a.program.notes (Note.Upheld true))
          ((raw.link settings.machine).startPoint lines) q →
        WellTyped true a.program raw.instrs q ∧
          ∀ f, (raw.link settings.machine).Faults q f →
            FaultAllowed true a.program raw.instrs q f) := by
  obtain ⟨source, hsource, rfl, hcode⟩ := exists_source_of_analysis ha
  have hp := Program.typed_of_analyze hsource hclean
  obtain ⟨raw, hl⟩ := hp.exists_lower_of_isKnown hk
  refine ⟨raw, hcode raw hclean hl, fun lines q => ⟨fun hq => ?_, fun hq => ?_⟩⟩
  · have hby := hq.reachesBy (Program.upheld_of_isKnown hk raw.instrs)
    exact ⟨hp.wellTyped false settings.machine hl hby,
      fun f hf => hp.faultAllowed false settings.machine hl hk hby hf⟩
  · exact ⟨hp.wellTyped true settings.machine hl hq,
      fun f hf => hp.faultAllowed true settings.machine hl hk hq hf⟩

/-- A program with a matrix of known shape, which is doubled. -/
theorem compile_sound_matrix : ∃ a raw,
    (compile "print [[1, 2], [3, 4]] * 2 + [[1, 2], [3, 4]]\n" {}).analysis = some a ∧
    (compile "print [[1, 2], [3, 4]] * 2 + [[1, 2], [3, 4]]\n" {}).code = some raw ∧
    Clean a.reports ∧ a.program.isKnown = true ∧
    ∀ lines q, (raw.link {}).Reaches ((raw.link {}).startPoint lines) q →
      WellTyped true a.program raw.instrs q ∧
        ∀ f, (raw.link {}).Faults q f → FaultAllowed true a.program raw.instrs q f := by
  let source := "print [[1, 2], [3, 4]] * 2 + [[1, 2], [3, 4]]\n"
  have hanalysis : (compile source {}).analysis.all (fun a => a.reports.isEmpty &&
      a.program.isKnown && a.program.notes.all fun n => n.reads.all fun t => !t.isOpen true) =
        true := by decide +kernel
  have hsome : (compile source {}).analysis.isSome = true := by decide +kernel
  obtain ⟨a, ha⟩ := Option.isSome_iff_exists.1 hsome
  rw [ha] at hanalysis
  simp only [Option.all_some, Bool.and_eq_true] at hanalysis
  obtain ⟨⟨hempty, hknown⟩, hclosed⟩ := hanalysis
  have hclean : Clean a.reports := by
    rw [List.isEmpty_iff.1 hempty]
    exact fun r hr => absurd hr List.not_mem_nil
  obtain ⟨raw, hraw, hsound⟩ := compile_sound source {} ha hclean hknown
  refine ⟨a, raw, ha, hraw, hclean, hknown, fun lines q hq => (hsound lines q).2 (hq.reachesBy ?_)⟩
  refine nextIs_upheld fun n hn t ht => ?_
  have hn := List.all_eq_true.1 hclosed n hn
  simpa using List.all_eq_true.1 hn t ht

/-- A matrix of which the shape is not known goes into an array of matrices of known shape. -/
theorem not_compile_sound_element : ¬ ∀ source settings p raw,
    (compile source settings).succeeded = true →
    (compile source settings).analysis.map (·.program) = some p →
    (compile source settings).code = some raw → p.isKnown = true →
    ∀ lines q, (raw.link settings.machine).Reaches
      ((raw.link settings.machine).startPoint lines) q → ∀ f,
      (raw.link settings.machine).Faults q f → FaultAllowed true p raw.instrs q f := by
  intro h
  let source := "matrix n = [[1, 2, 3]]\narray a = [-[[1, 2], [3, 4]]]\na[0] = n\n" ++
    "matrix s = a[0] + [[1, 2], [3, 4]]\nprint \"done\"\n"
  have hs : (compile source {}).succeeded = true := by decide +kernel
  have hknown : ((compile source {}).analysis.map (·.program)).all Program.isKnown = true := by
    decide +kernel
  obtain ⟨p, raw, -, hl, hp, hraw, -⟩ := exists_program_of_succeeded hs
  -- The instruction that adds the two matrices.
  have hreads : (((compile source {}).analysis.map (·.program)).bind fun p =>
      p.notes[21]?.map (·.reads)) =
      some [.matrix (some (2, 2)), .matrix (some (2, 2))] := by decide +kernel
  have hfault : ((compile source {}).code.bind fun c =>
      ((c.link {}).after 21 ((c.link {}).startPoint [])).map fun q =>
        (q.machine.pc, match q.machine.step (c.link {}) with
          | .faulted _ f => f.isShapes
          | _ => false)) = some (21, true) := by decide +kernel
  rw [hp] at hknown hreads
  rw [hraw] at hfault
  obtain ⟨n, hn, hnreads⟩ := Option.map_eq_some_iff.1 hreads
  obtain ⟨q, hq, hqfault⟩ := Option.map_eq_some_iff.1 hfault
  obtain ⟨hpc, hshapes⟩ := Prod.mk.inj hqfault
  split at hshapes
  · rename_i m f hstep
    obtain ⟨i, n', -, hn', hallows⟩ := h source {} p raw hs hp hraw hknown [] q
      (Image.reaches_of_after hq) f (.step hstep)
    rw [hpc, hn] at hn'
    cases hn'
    have hmem := hallows.shapes rfl hshapes
    rw [hnreads] at hmem
    simp at hmem
  · cases hshapes

end NumericScript
