import Mathlib.Logic.Function.Iterate
import NumericScript.Proofs.Fault
import NumericScript.Proofs.Optimize.Rounds

/-! # What becomes of faults in dead code

An operation that writes a temporary which nothing reads is taken away even if the values that it
finds may make it fault.  So a run without dead code is the run before, unless that ends with the
fault of such an operation.

* `Op.mayFault`: whether the operands of an operation leave open that it faults.
* `Retains`: code that runs as the code before where no idle operation faults.
* `Code.run_iterate_dropDead`: without dead code, runs go on alike if they do not end in a fault.
* `Code.run_dropDead`: and if they do, unless an idle operation faults. -/

namespace NumericScript

/-- The code without its dead code. -/
def Code.dropDead (c : Code) : Code := { c with instrs := (deadCode c.instrs).code }

/-! ### Idle operations -/

/-- Whether the operands of an operation that gives a place a value leave open that it faults. -/
def Op.mayFault : Op → Bool
  | .assign _ _ | .newArray _ _ | .newMatrix _ _ _ | .copy _ (.const _) => false
  | .unary _ f (.const c) => !(f.apply c.toValue).toBool
  | .binary _ op (.const a) (.const b) => !(op.apply a.toValue b.toValue).toBool
  | _ => true

theorem exists_eq_ok_of_toBool {x : Except Fault Value} (h : x.toBool = true) :
    ∃ v, x = .ok v := by
  cases x with
  | ok v => exact ⟨v, rfl⟩
  | error f => cases h

/-- An operation that may not fault gives a value whatever the machine holds. -/
theorem Op.exists_effect_of_mayFault {op : Op} (h : op.mayFault = false) (m : Machine) :
    ∃ d v, m.effect op = some (d, .ok v) := by
  cases op with
  | assign d c => exact ⟨d, _, rfl⟩
  | newArray d n => exact ⟨d, _, rfl⟩
  | newMatrix d r c => exact ⟨d, _, rfl⟩
  | copy d s =>
    cases s with
    | const c => exact ⟨d, _, rfl⟩
    | _ => cases h
  | unary d f o =>
    cases o with
    | const c =>
      obtain ⟨v, hv⟩ := exists_eq_ok_of_toBool (x := f.apply c.toValue)
        (by simpa [mayFault] using h)
      exact ⟨d, v, by simp only [Machine.effect, Machine.eval, bind, Except.bind, hv]⟩
    | _ => cases h
  | binary d op l r =>
    cases l with
    | const a =>
      cases r with
      | const b =>
        obtain ⟨v, hv⟩ := exists_eq_ok_of_toBool (x := op.apply a.toValue b.toValue)
          (by simpa [mayFault] using h)
        exact ⟨d, v, by simp only [Machine.effect, Machine.eval, bind, Except.bind, hv]⟩
      | _ => cases h
    | _ => cases h
  | _ => cases h

/-- An idle operation gives a temporary that is not read a value, or faults. -/
theorem Op.exists_effect_of_isIdle {op : Op} {read : List Nat} (h : op.isIdle read = true)
    (m : Machine) : ∃ t x, m.effect op = some (.temp t, x) ∧ t ∉ read := by
  obtain ⟨t, hw, hp, ht⟩ := exists_tempWritten?_of_isIdle h
  cases op with
  | assign d _ | copy d _ | unary d _ _ | newArray d _ | newMatrix d _ _ | binary d _ _ _ =>
    cases d <;> cases hw
    exact ⟨t, _, rfl, ht⟩
  | _ => first | cases hw | cases hp

/-- An operation that is idle where less is not read is idle. -/
theorem Op.isIdle_mono {op : Op} {read read' : List Nat} (h : op.isIdle read = true)
    (hsub : ∀ t ∈ read', t ∈ read) : op.isIdle read' = true := by
  obtain ⟨t, hw, hp, ht⟩ := exists_tempWritten?_of_isIdle h
  simp only [isIdle, hw, hp, Bool.true_and, decide_eq_true_eq]
  exact fun h' => ht (hsub t h')

/-- If the operation at hand writes a temporary that is not among those in `read`, it does not
fault. -/
def Op.Harmless (read : List Nat) (m : Machine) (op : Op) : Prop :=
  op.isIdle read = true → ∃ d v, m.effect op = some (d, .ok v)

section

variable {functions : List FunctionInfo} {settings : MachineSettings} {read : List Nat}
  {code : List Instr}

variable (functions) in
/-- An idle operation that faults ends the run. -/
theorem advance_of_not_harmless (hs : settings.maxSteps = none) {p : Point} {i : Instr}
    (hi : code[p.machine.pc]? = some i) (h : ¬ i.op.Harmless read p.machine) :
    i.op.isIdle read = true ∧ i.op.mayFault = true ∧ ∃ d f,
      p.machine.effect i.op = some (d, .error f) ∧
      (Code.link ⟨code, functions⟩ settings).advance p =
        .done ((Code.link ⟨code, functions⟩ settings).faultOutcome (p.machine.noted i.line) f
          p.unread) := by
  obtain ⟨hidle, hnone⟩ := Classical.not_imp.1 h
  obtain ⟨t, x, hx, -⟩ := Op.exists_effect_of_isIdle hidle p.machine
  refine ⟨hidle, ?_, ?_⟩
  · rw [← Bool.not_eq_false]
    exact fun hf => hnone (Op.exists_effect_of_mayFault hf p.machine)
  · cases x with
    | ok v => exact absurd ⟨_, v, hx⟩ hnone
    | error f =>
      refine ⟨_, f, hx, ?_⟩
      rw [Image.advance_of_op (i := i) hs (by simpa [Code.link] using hi) (label?_of_isIdle hidle),
        Machine.execute_of_effect ((Machine.effect_noted ..).trans hx)]
      rfl

theorem Op.Harmless.of_alike {place : Nat → Nat} {dead : Nat → Prop} {a b : Machine} {op : Op}
    (h : op.Harmless read a) (hab : Machine.Alike place dead a b)
    (hread : ∀ t ∈ op.tempsRead, ¬ dead t) : op.Harmless read b := by
  intro hidle
  rw [hab.effect hread]
  exact h hidle

theorem Op.Harmless.of_label {m : Machine} {op : Op} (h : op.label?.isSome) :
    op.Harmless read m := by
  intro hidle
  rw [label?_of_isIdle hidle] at h
  cases h

/-- A run that comes to an end has met no idle operation that faults, unless it ends with that
fault. -/
theorem Image.Halts.harmless (hs : settings.maxSteps = none) {p : Point} {o : RunOutcome}
    (h : (Code.link ⟨code, functions⟩ settings).Halts p o) (read : List Nat) :
    ∃ q, (Code.link ⟨code, functions⟩ settings).Reaches p q ∧
      (Code.link ⟨code, functions⟩ settings).advance q = .done o ∧
      ((Code.link ⟨code, functions⟩ settings).Always (OpAt (Op.Harmless read) code) p ∨
        ∃ i, code[q.machine.pc]? = some i ∧ ¬ i.op.Harmless read q.machine) := by
  induction h with
  | @done p o hdone =>
    refine ⟨p, .refl, hdone, ?_⟩
    by_cases hp : OpAt (Op.Harmless read) code p
    · exact .inl (.of_done hp hdone)
    · simp only [OpAt, not_forall] at hp
      obtain ⟨i, hi, hp⟩ := hp
      exact .inr ⟨i, hi, hp⟩
  | @next p p' o hnext _ ih =>
    obtain ⟨q, hq, hdone, hharmless⟩ := ih
    refine ⟨q, hq.head hnext, hdone, hharmless.imp_left (.of_next (fun i hi => ?_) hnext)⟩
    by_contra hnot
    obtain ⟨-, -, d, f, -, hdone⟩ := advance_of_not_harmless functions hs hi hnot
    rw [hnext] at hdone
    cases hdone

/-! ### Passes -/

variable (functions settings read) in
/-- Code that runs as the code before where no operation faults that writes a temporary which is not
among those in `read`. -/
structure Retains (code code' : List Instr) : Prop where
  linked : Linked functions code → Linked functions code'
  runs : Linked functions code → ∀ lines,
    Image.Always (Code.link ⟨code, functions⟩ settings) (OpAt (Op.Harmless read) code)
      ((Code.link ⟨code, functions⟩ settings).startPoint lines) →
    Image.Always (Code.link ⟨code', functions⟩ settings) (OpAt (Op.Harmless read) code')
      ((Code.link ⟨code', functions⟩ settings).startPoint lines) ∧
    ∀ o, (Code.link ⟨code, functions⟩ settings).Halts
        ((Code.link ⟨code, functions⟩ settings).startPoint lines) o ↔
      (Code.link ⟨code', functions⟩ settings).Halts
        ((Code.link ⟨code', functions⟩ settings).startPoint lines) o

namespace Retains

variable {code' code'' : List Instr}

theorem refl (code : List Instr) : Retains functions settings read code code :=
  ⟨id, fun _ _ h => ⟨h, fun _ => Iff.rfl⟩⟩

theorem trans (h : Retains functions settings read code code')
    (h' : Retains functions settings read code' code'') :
    Retains functions settings read code code'' where
  linked := h'.linked ∘ h.linked
  runs := by
    intro hl lines hP
    obtain ⟨hP', hiff⟩ := h.runs hl lines hP
    obtain ⟨hP'', hiff'⟩ := h'.runs (h.linked hl) lines hP'
    exact ⟨hP'', fun o => (hiff o).trans (hiff' o)⟩

/-- A pass that only takes instructions away retains what code does if what goes is not missed. -/
theorem of_rearranged {kept : List (Option Instr)} (hs : settings.maxSteps = none)
    (h : Linked functions code → Rearranged functions code kept) (dead : Nat → Prop)
    (I : Machine → Prop) (hstart : ∀ line angle, I (.start line angle))
    (hstep : Linked functions code → ∀ p q, I p.machine →
      (Code.link ⟨code, functions⟩ settings).advance p = .next q → I q.machine)
    (hread : ∀ i ∈ kept.reduceOption, ∀ t ∈ i.op.tempsRead, ¬ dead t)
    (hkeep : ∀ (k : Nat) (i i' : Instr), code[k]? = some i → kept[k]? = some (some i') → i' = i)
    (hdrop : ∀ p i, I p.machine → i.op.Harmless read p.machine → code[p.machine.pc]? = some i →
      kept[p.machine.pc]? = some none →
      ∃ m, (Code.link ⟨code, functions⟩ settings).advance p = .next ⟨m, p.unread⟩ ∧
        p.machine.pc < m.pc ∧
        (∀ j, p.machine.pc < j → j < m.pc →
          ∃ i', code[j]? = some i' ∧ i'.op.label?.isSome) ∧
        ∀ b, Machine.Alike (shift kept) dead p.machine b →
          Machine.Alike (shift kept) dead m b) :
    Retains functions settings read code kept.reduceOption where
  linked := fun hl => (h hl).after
  runs := fun hl _ hP => by
    refine (h hl).runs hs dead I (Op.Harmless read) (fun _ _ => .of_label)
      (fun _ _ _ _ hab hread h => h.of_alike hab hread) hstart (hstep hl) hread ?_ hdrop hP
    intro m i i' _ ht hi hi'
    obtain rfl := hkeep _ i i' hi hi'
    exact ⟨fun _ => rfl, ht⟩

end Retains

/-- What is read in part of code is read in the code. -/
theorem mem_tempsRead_of_sublist {code' : List Instr} (h : code'.Sublist code) {t : Nat}
    (ht : t ∈ tempsRead code') : t ∈ tempsRead code := by
  obtain ⟨i, hi, ht⟩ := List.mem_flatMap.1 ht
  exact List.mem_flatMap.2 ⟨i, h.subset hi, ht⟩

theorem retains_dropUnreachable (hs : settings.maxSteps = none) (code : List Instr) :
    Retains functions settings read code (dropUnreachable true code) := by
  rw [← reduceOption_keepReached]
  refine .of_rearranged hs rearranged_dropUnreachable (fun _ => False) (IsReached code)
    isReached_start (fun hl _ _ hp hadv => hp.advance hl hadv) (fun _ _ _ _ => id)
    (fun _ _ _ => keepReached_eq_self) ?_
  intro p i hp _ _ hi'
  exact absurd hi' hp.1

theorem retains_dropUnusedLabels (hs : settings.maxSteps = none)
    (hf : Linked functions code → ∀ f ∈ functions, f.label ∈ labelsIn (dropUnusedLabels code)) :
    Retains functions settings read code (dropUnusedLabels code) := by
  rw [dropUnusedLabels_eq, ← reduceOption_keepIf]
  refine .of_rearranged hs (fun hl => rearranged_dropUnusedLabels hl (hf hl)) (fun _ => False)
    (fun _ => True) (fun _ _ => trivial) (fun _ _ _ _ _ => trivial) (fun _ _ _ _ => id)
    (fun _ _ _ hi hi' => (keepIf_eq_some hi hi').1) fun p i _ _ hi hi' => ?_
  exact exists_advance_of_isUsed_eq_false hi (keepIf_eq_none hi hi')

theorem retains_dropIdle (hs : settings.maxSteps = none)
    (hread : ∀ t ∈ read, t ∈ tempsRead code) :
    Retains functions settings read code (dropIdle code) := by
  have hkept := reduceOption_keepBusy code
  rw [← hkept]
  refine .of_rearranged hs linked_keepBusy (fun t => t ∉ tempsRead code) (fun _ => True)
    (fun _ _ => trivial) (fun _ _ _ _ _ => trivial) ?_
    (fun _ _ _ hi hi' => (keepIf_eq_some hi hi').1) ?_
  · intro i hi t ht
    exact not_not.2 (mem_tempsRead_of_dropIdle (hkept ▸ hi) ht)
  · intro p i _ hharmless hi hi'
    have hidle := isIdle_of_keepBusy hi hi'
    obtain ⟨t, x, hx, ht⟩ := Op.exists_effect_of_isIdle hidle p.machine
    obtain ⟨d, v, hv⟩ := hharmless (Op.isIdle_mono hidle hread)
    rw [hx] at hv
    cases hv
    exact exists_advance_of_effect hs hi ht hx

theorem retains_dropAllIdle (hs : settings.maxSteps = none) (code : List Instr)
    (hread : ∀ t ∈ read, t ∈ tempsRead (dropAllIdle code)) :
    Retains functions settings read code (dropAllIdle code) := by
  fun_induction dropAllIdle code with
  | case1 code less _ ih =>
    refine (retains_dropIdle hs fun t ht => ?_).trans (ih hread)
    exact mem_tempsRead_of_sublist ((dropAllIdle_sublist _).trans (dropIdle_sublist code))
      (hread t ht)
  | case2 code less _ => exact .refl code

/-- Taking dead code away retains what code does if no function needs a label that goes. -/
theorem retains_deadCode (hs : settings.maxSteps = none) (code : List Instr)
    (hf : Linked functions (dropUnreachable true code) →
      ∀ f ∈ functions, f.label ∈ labelsIn (dropUnusedLabels (dropUnreachable true code)))
    (hread : ∀ t ∈ read, t ∈ tempsRead (deadCode code).code) :
    Retains functions settings read code (deadCode code).code :=
  ((retains_dropUnreachable hs code).trans (retains_dropUnusedLabels hs hf)).trans
    (retains_dropAllIdle hs _ hread)

/-! ### Runs -/

/-- The fault of an idle operation ends a run as a fault does. -/
theorem status_of_not_harmless {m : Machine} {op : Op} {d : Place} {f : Fault} {image : Image}
    {unread : List String} (h : m.effect op = some (d, .error f)) :
    (image.faultOutcome m f unread).status = .halted .fault := by
  rw [Image.faultOutcome, if_neg (Machine.effect_ne_overflow h)]

end

namespace Code

variable {c : Code} {settings : MachineSettings} {image image' : Image}

@[simp] theorem functions_iterate_dropDead (c : Code) (n : Nat) :
    (dropDead^[n] c).functions = c.functions := by
  induction n generalizing c with
  | zero => rfl
  | succ n ih => rw [Function.iterate_succ_apply, ih]; rfl

theorem instrs_iterate_dropDead_sublist (c : Code) (n : Nat) :
    (dropDead^[n] c).instrs.Sublist c.instrs := by
  induction n generalizing c with
  | zero => exact List.Sublist.refl _
  | succ n ih =>
    rw [Function.iterate_succ_apply]
    exact (ih c.dropDead).trans (deadCode_sublist c.instrs)

/-- Taking dead code away any number of times retains what code does. -/
theorem retains_iterate_dropDead (hs : settings.maxSteps = none)
    (hf : ∀ f ∈ c.functions, ∃ name, f.label = .function name) (n : Nat) {read : List Nat}
    (hread : ∀ t ∈ read, t ∈ tempsRead (dropDead^[n] c).instrs) :
    Retains c.functions settings read c.instrs (dropDead^[n] c).instrs := by
  induction n generalizing c with
  | zero => exact .refl c.instrs
  | succ n ih =>
    rw [Function.iterate_succ_apply] at hread ⊢
    refine Retains.trans (retains_deadCode hs c.instrs (fun hl f hfm => ?_) fun t ht => ?_)
      (ih (c := c.dropDead) hf hread)
    · exact mem_labelsIn_dropUnusedLabels (hl.entries f hfm) (.inl (hf f hfm))
    · exact mem_tempsRead_of_sublist (instrs_iterate_dropDead_sublist c.dropDead n) (hread t ht)

/-- Where functions have labels of their own, code without dead code can be made ready, however
often dead code is taken away.  Its runs end as they did before unless that was with a fault, and
run for ever if they did before. -/
theorem run_iterate_dropDead (hs : settings.maxSteps = none)
    (hf : ∀ f ∈ c.functions, ∃ name, f.label = .function name)
    (hi : Image.ofCode c settings = .ok image) (n : Nat) :
    ∃ image', Image.ofCode (dropDead^[n] c) settings = .ok image' ∧ ∀ lines,
      (∀ fuel o, image.run fuel lines = some o → o.status ≠ .halted .fault →
        ∃ fuel', image'.run fuel' lines = some o) ∧
      ((∀ fuel, image.run fuel lines = none) → ∀ fuel, image'.run fuel lines = none) := by
  obtain ⟨hl, rfl⟩ := ofCode_eq_ok_iff.1 hi
  have hr : Retains c.functions settings (tempsRead (dropDead^[n] c).instrs) c.instrs
      (dropDead^[n] c).instrs := retains_iterate_dropDead hs hf n fun _ => id
  have hfunctions := functions_iterate_dropDead c n
  generalize hc' : dropDead^[n] c = c' at hr hfunctions ⊢
  obtain ⟨instrs', functions'⟩ := c'
  cases hfunctions
  refine ⟨Code.link ⟨instrs', c.functions⟩ settings,
    ofCode_eq_ok_iff.2 ⟨hr.linked hl, rfl⟩, fun lines => ⟨fun fuel o ho hne => ?_, fun hever => ?_⟩⟩
  · have hhalts := Image.exists_run_iff.1 ⟨fuel, ho⟩
    obtain ⟨q, -, hdone, halways | ⟨i, hi, hnot⟩⟩ := hhalts.harmless hs (tempsRead instrs')
    · exact Image.exists_run_iff.2 (((hr.runs hl lines halways).2 o).1 hhalts)
    · obtain ⟨-, -, d, f, hfault, hdone'⟩ := advance_of_not_harmless c.functions hs hi hnot
      rw [hdone'] at hdone
      cases hdone
      rw [← Machine.effect_noted q.machine i.line] at hfault
      exact absurd (status_of_not_harmless hfault) hne
  · have hnever : ∀ o, ¬ (c.link settings).Halts ((c.link settings).startPoint lines) o := by
      intro o ho
      obtain ⟨fuel, ho⟩ := Image.exists_run_iff.2 ho
      rw [hever fuel] at ho
      cases ho
    have halways : (c.link settings).Always (OpAt (Op.Harmless (tempsRead instrs')) c.instrs)
        ((c.link settings).startPoint lines) := by
      intro p hp i hi
      by_contra hnot
      obtain ⟨-, -, d, f, -, hdone⟩ := advance_of_not_harmless c.functions hs hi hnot
      exact hnever _ (.of_reaches hp (.done hdone))
    intro fuel
    rw [Option.eq_none_iff_forall_ne_some]
    intro o ho
    exact hnever o (((hr.runs hl lines halways).2 o).2 (Image.exists_run_iff.1 ⟨fuel, ho⟩))

/-- Code that calls a function and computes in vain, with an instruction that control does not
reach. -/
def paddedCall : Code where
  instrs := [⟨.assign (.temp 0) (.int 1), 1⟩, ⟨.copy (.temp 1) (.place (.temp 0)), 1⟩,
    ⟨.call (.user "f") 0, 1⟩, ⟨.halt, 1⟩, ⟨.jump (.local 0), 1⟩, ⟨.label (.local 0), 1⟩,
    ⟨.label (.function "f"), 2⟩, ⟨.print (.const (.str "a")) true, 2⟩, ⟨.return none, 2⟩]
  functions := [⟨"f", .function "f", [], false, 2⟩]

/-- Without its dead code it prints the same. -/
theorem run_iterate_dropDead_call :
    (∀ f ∈ paddedCall.functions, ∃ name, f.label = .function name) ∧
    (dropDead^[2] paddedCall).instrs.length = 5 ∧
    ∃ image o image', Image.ofCode paddedCall {} = .ok image ∧
      image.run 12 [] = some o ∧ o.status = .halted .finished ∧ o.output = "a\n" ∧
      Image.ofCode (dropDead^[2] paddedCall) {} = .ok image' ∧
      ∃ fuel', image'.run fuel' [] = some o := by
  have hf : ∀ f ∈ paddedCall.functions, ∃ name, f.label = .function name := by
    intro f hf
    cases List.mem_singleton.1 hf
    exact ⟨"f", rfl⟩
  obtain ⟨image, hi⟩ : ∃ image, Image.ofCode paddedCall {} = .ok image := ⟨_, rfl⟩
  obtain ⟨o, ho, hstatus, hout⟩ : ∃ o, image.run 12 [] = some o ∧ o.status = .halted .finished ∧
      o.output = "a\n" := by
    cases hi
    exact ⟨_, rfl, rfl, rfl⟩
  obtain ⟨image', hi', hruns⟩ := run_iterate_dropDead rfl hf hi 2
  refine ⟨hf, by decide +kernel, image, o, image', hi, ho, hstatus, hout, hi', ?_⟩
  exact (hruns []).1 12 o ho (by rw [hstatus]; decide)

/-- A run ends as it does without dead code, also with a fault, unless it ends with the fault of an
operation whose operands leave that open, and which writes a temporary that nothing reads without
dead code. -/
theorem run_dropDead (hs : settings.maxSteps = none) (hi : Image.ofCode c settings = .ok image)
    (hi' : Image.ofCode c.dropDead settings = .ok image') {lines : List String} {fuel : Nat}
    {o : RunOutcome} (ho : image.run fuel lines = some o) :
    (∃ fuel', image'.run fuel' lines = some o) ∨
      ∃ q i d f, image.Reaches (image.startPoint lines) q ∧ image.advance q = .done o ∧
        c.instrs[q.machine.pc]? = some i ∧ i.op.isIdle (tempsRead c.dropDead.instrs) = true ∧
        i.op.mayFault = true ∧ q.machine.effect i.op = some (d, .error f) := by
  obtain ⟨hl, rfl⟩ := ofCode_eq_ok_iff.1 hi
  obtain ⟨hl', rfl⟩ := ofCode_eq_ok_iff.1 hi'
  have hhalts := Image.exists_run_iff.1 ⟨fuel, ho⟩
  obtain ⟨q, hq, hdone, halways | ⟨i, hi, hnot⟩⟩ :=
    hhalts.harmless hs (tempsRead c.dropDead.instrs)
  · left
    have hr : Retains c.functions settings (tempsRead c.dropDead.instrs) c.instrs
        c.dropDead.instrs := by
      refine retains_deadCode hs c.instrs (fun _ f hf => ?_) fun _ => id
      exact ((dropAllIdle_sublist _).filterMap _).subset (hl'.entries f hf)
    exact Image.exists_run_iff.2 (((hr.runs hl lines halways).2 o).1 hhalts)
  · obtain ⟨hidle, hmay, d, f, hfault, -⟩ := advance_of_not_harmless c.functions hs hi hnot
    exact .inr ⟨q, i, d, f, hq, hdone, hi, hidle, hmay, hfault⟩

/-- Code that ends with the fault of a division whose quotient nothing reads. -/
def vainQuotient : Code where
  instrs := [⟨.binary (.temp 0) .div (.const (.int 1)) (.const (.int 0)), 1⟩, ⟨.halt, 1⟩]
  functions := []

/-- The division stays, and so does the fault. -/
theorem run_dropDead_quotient : ∃ image image' o, Image.ofCode vainQuotient {} = .ok image ∧
    Image.ofCode vainQuotient.dropDead {} = .ok image' ∧ image.run 9 [] = some o ∧
    o.status = .halted .fault ∧ ∃ fuel', image'.run fuel' [] = some o := by
  obtain ⟨image, hi⟩ : ∃ image, Image.ofCode vainQuotient {} = .ok image := ⟨_, rfl⟩
  obtain ⟨image', hi'⟩ : ∃ image, Image.ofCode vainQuotient.dropDead {} = .ok image :=
    ⟨_, ofCode_eq_ok_iff.2 ⟨⟨by decide +kernel, by decide +kernel, by decide +kernel⟩, rfl⟩⟩
  obtain ⟨o, ho, hstatus⟩ : ∃ o, image.run 9 [] = some o ∧ o.status = .halted .fault := by
    cases hi
    exact ⟨_, rfl, rfl⟩
  refine ⟨image, image', o, hi, hi', ho, hstatus, ?_⟩
  refine (run_dropDead rfl hi hi' ho).resolve_right ?_
  rintro ⟨q, i, d, f, -, -, hq, hidle, -⟩
  have hnone : ∀ i ∈ vainQuotient.instrs,
      i.op.isIdle (tempsRead vainQuotient.dropDead.instrs) = false := by decide +kernel
  rw [hnone i (List.mem_of_getElem? hq)] at hidle
  cases hidle

/-- Code that ends with the fault of a negation whose result nothing reads. -/
def vainNegation : Code where
  instrs := [⟨.unary (.temp 0) .neg (.const (.str "a")), 1⟩, ⟨.halt, 2⟩]
  functions := []

/-- The negation goes, and the fault with it. -/
theorem not_run_dropDead_negation : ¬ ∀ c settings image image' lines fuel o,
    settings.maxSteps = none → Image.ofCode c settings = .ok image →
    Image.ofCode c.dropDead settings = .ok image' → image.run fuel lines = some o →
    o.status = .halted .fault → ∃ fuel', image'.run fuel' lines = some o := by
  intro h
  obtain ⟨image, hi⟩ : ∃ image, Image.ofCode vainNegation {} = .ok image := ⟨_, rfl⟩
  obtain ⟨image', hi'⟩ : ∃ image, Image.ofCode vainNegation.dropDead {} = .ok image :=
    ⟨_, ofCode_eq_ok_iff.2 ⟨⟨by decide +kernel, by decide +kernel, by decide +kernel⟩, rfl⟩⟩
  obtain ⟨o, ho, hstatus⟩ : ∃ o, image.run 9 [] = some o ∧ o.status = .halted .fault := by
    cases hi
    exact ⟨_, rfl, rfl⟩
  have hrun := h vainNegation {} image image' [] 9 o rfl hi hi' ho hstatus
  have hdrop : vainNegation.dropDead = ⟨[⟨.halt, 2⟩], []⟩ := by decide +kernel
  have hend : ∃ o', (∃ fuel, vainNegation.dropDead.run {} fuel [] = some o') ∧
      o'.status = .halted .finished := by
    rw [hdrop]
    exact ⟨_, ⟨9, rfl⟩, rfl⟩
  obtain ⟨o', ho', hstatus'⟩ := hend
  unfold Code.run at ho'
  rw [hi'] at ho'
  have heq := (Image.exists_run_iff.1 hrun).unique (Image.exists_run_iff.1 ho')
  rw [← heq, hstatus] at hstatus'
  cases hstatus'

end Code

end NumericScript
