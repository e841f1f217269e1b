import NumericScript.Proofs.Direct.Step
import NumericScript.Proofs.Optimize.Join

/-! # Runs of code with simplified neighbours

Of the rewritings of neighbouring instructions, one alone depends on how a run goes: a copy of a
place to itself does nothing if the place has a value, and otherwise it is a fault that ends the
run.  How code uses temporaries does not matter, nor what a run computes.

* `Follows`: code that runs as the code before where something holds of every operation at hand.
* `always_backed`: where a run never faults for want of a value, places that are copied to
  themselves have values.
* `Code.run_simplify`: simplified code can be made ready.  Its runs end as they did unless that was
  for want of a value, and go on for ever if they did. -/

namespace NumericScript

/-- The code with its neighbouring instructions simplified. -/
def Code.simplify (c : Code) : Code := { c with instrs := (peephole c.instrs).code }

section

variable (functions : List FunctionInfo) (settings : MachineSettings) (T : Machine → Op → Prop)

/-- Code that runs as the code before where `T` holds of every operation at hand. -/
structure Follows (code code' : List Instr) : Prop where
  linked : Linked functions code → Linked functions code'
  runs : Linked functions code → ∀ lines,
    Image.Always (Code.link ⟨code, functions⟩ settings) (OpAt T code)
      ((Code.link ⟨code, functions⟩ settings).startPoint lines) →
    Image.Always (Code.link ⟨code', functions⟩ settings) (OpAt T code')
      ((Code.link ⟨code', functions⟩ settings).startPoint lines) ∧
    ∀ o, (Code.link ⟨code, functions⟩ settings).Halts
        ((Code.link ⟨code, functions⟩ settings).startPoint lines) o ↔
      (Code.link ⟨code', functions⟩ settings).Halts
        ((Code.link ⟨code', functions⟩ settings).startPoint lines) o

end

section

variable {functions : List FunctionInfo} {settings : MachineSettings} {T : Machine → Op → Prop}
  {code code' code'' : List Instr}

theorem Follows.trans (h : Follows functions settings T code code')
    (h' : Follows functions settings T code' code'') :
    Follows functions settings T code code'' where
  linked := h'.linked ∘ h.linked
  runs := by
    intro hl lines hP
    obtain ⟨hP', hiff⟩ := h.runs hl lines hP
    obtain ⟨hP'', hiff'⟩ := h'.runs (h.linked hl) lines hP'
    exact ⟨hP'', fun o => (hiff o).trans (hiff' o)⟩

/-! ### Places that are copied to themselves -/

/-- If the operation at hand copies a place to itself, the place has a value. -/
def Op.Backed (m : Machine) (op : Op) : Prop :=
  ∀ d, op = .copy d (.place d) → (m.read? d).isSome

namespace Op.Backed

theorem of_dest? {m : Machine} {op : Op} (h : op.dest? = none) : op.Backed m := by
  rintro d rfl
  cases h

theorem of_alike {place : Nat → Nat} {dead : Nat → Prop} {a b : Machine} {op : Op}
    (h : op.Backed a) (hab : Machine.Alike place dead a b) (hread : ∀ t ∈ op.tempsRead, ¬ dead t) :
    op.Backed b := by
  rintro d rfl
  rw [hab.read? fun t ht => hread t (by rw [ht]; exact List.mem_cons_self ..)]
  exact h d rfl

end Op.Backed

/-- A copy to itself of a place without a value is a fault for want of the value. -/
theorem faults_of_not_backed (hs : settings.maxSteps = none) (hl : Linked functions code)
    {p : Point} {i : Instr} (hi : code[p.machine.pc]? = some i) (h : ¬ i.op.Backed p.machine) :
    ∃ d, (Code.link ⟨code, functions⟩ settings).Faults p (.undefinedVariable (Place.text d)) := by
  simp only [Op.Backed, not_forall, Option.not_isSome_iff_eq_none] at h
  obtain ⟨d, hop, hd⟩ := h
  have he : Machine.execute (Code.link ⟨code, functions⟩ settings) (p.machine.noted i.line) i.op =
      .error (.undefinedVariable d.text) := by
    have hread : (p.machine.noted i.line).read d = .error (.undefinedVariable d.text) := by
      rw [Machine.read, Machine.read?_noted, hd]
    rw [hop, Machine.execute, Machine.eval, hread]
    rfl
  exact ⟨d, (Ready.of_linked (c := ⟨code, functions⟩) hl hs).faults hi (by rw [hop]; rfl) he⟩

/-- Where a run never faults for want of a value, places that are copied to themselves have
values. -/
theorem always_backed (hs : settings.maxSteps = none) (hl : Linked functions code) {p : Point}
    (h : ∀ q name, (Code.link ⟨code, functions⟩ settings).Reaches p q →
      ¬ (Code.link ⟨code, functions⟩ settings).Faults q (.undefinedVariable name)) :
    (Code.link ⟨code, functions⟩ settings).Always (OpAt Op.Backed code) p := by
  intro q hq i hi
  by_contra hnot
  obtain ⟨d, hfault⟩ := faults_of_not_backed hs hl hi hnot
  exact h q d.text hq hfault

/-! ### The rewritings -/

/-- Code runs as before if what stays acts as before and what goes does nothing, where places that
are copied to themselves have values. -/
theorem Follows.of_rearranged {kept : List (Option Instr)} (hs : settings.maxSteps = none)
    (h : Linked functions code → Rearranged functions code kept)
    (hkeep : ∀ (k : Nat) (i i' : Instr), code[k]? = some i → kept[k]? = some (some i') →
      (∀ image m, Machine.execute image m i.op = Machine.execute image m i'.op) ∧
        ∀ m, i.op.Backed m → i'.op.Backed m)
    (hdrop : Linked functions code → ∀ p i, i.op.Backed p.machine →
      code[p.machine.pc]? = some i → kept[p.machine.pc]? = some none →
      ∃ m, (Code.link ⟨code, functions⟩ settings).advance p = .next ⟨m, p.unread⟩ ∧
        p.machine.pc < m.pc ∧
        (∀ j, p.machine.pc < j → j < m.pc → ∃ i', code[j]? = some i' ∧ i'.op.label?.isSome) ∧
        ∀ b, Machine.Alike (shift kept) (fun _ => False) p.machine b →
          Machine.Alike (shift kept) (fun _ => False) m b) :
    Follows functions settings Op.Backed code kept.reduceOption where
  linked := fun hl => (h hl).after
  runs := fun hl _ hP => by
    refine (h hl).runs hs (fun _ => False) (fun _ => True) Op.Backed
      (fun _ op hlab => .of_dest? (by cases op <;> first | rfl | cases hlab))
      (fun _ _ _ _ hab hread h => h.of_alike hab hread) (fun _ _ => trivial)
      (fun _ _ _ _ => trivial) (fun _ _ _ _ => id) (fun m i i' _ ht hi hi' => ?_)
      (fun p i _ => hdrop hl p i) hP
    obtain ⟨hexecute, hbacked⟩ := hkeep _ i i' hi hi'
    exact ⟨fun _ => hexecute _ _, hbacked m ht⟩

theorem follows_decideBranches (hs : settings.maxSteps = none) (code : List Instr) :
    Follows functions settings Op.Backed code (decideBranches code).code := by
  rw [← reduceOption_map_decideBranch]
  refine .of_rearranged hs (fun hl => .of_keepsJumps hl (keepsJumps_decideBranch code))
    (fun k i i' hi hi' => ?_)
    (fun _ p i _ hi hi' => exists_advance_of_decided hs hi (eq_decideBranch hi hi').symm)
  have he := (eq_decideBranch hi hi').symm
  refine ⟨execute_decideBranch he, fun m hbacked => ?_⟩
  rcases decideBranch_cases i with h | ⟨l, -, h⟩ | ⟨l, -, h⟩
  · rw [h] at he
    cases he
    exact hbacked
  · rw [h] at he
    cases he
  · rw [h] at he
    cases he
    exact .of_dest? rfl

theorem follows_dropJumpsToNext (hs : settings.maxSteps = none) (code : List Instr) :
    Follows functions settings Op.Backed code (dropJumpsToNext code) := by
  rw [← reduceOption_keepDetours]
  refine .of_rearranged hs (fun hl => .of_keepsJumps hl (keepsJumps_keepDetours code))
    (fun k i i' hi hi' => ?_) (fun hl p i _ => exists_advance_of_detour hs hl)
  obtain rfl := keepDetours_eq_self hi hi'
  exact ⟨fun _ _ => rfl, fun _ => id⟩

theorem follows_dropSelfCopies (hs : settings.maxSteps = none) (code : List Instr) :
    Follows functions settings Op.Backed code (dropSelfCopies code) := by
  unfold dropSelfCopies
  rw [← reduceOption_keepIf]
  refine .of_rearranged hs rearranged_dropSelfCopies (fun k i i' hi hi' => ?_)
    (fun _ p i hbacked hi hi' => ?_)
  · obtain rfl := (keepIf_eq_some hi hi').1
    exact ⟨fun _ _ => rfl, fun _ => id⟩
  · obtain ⟨d, hop⟩ := exists_of_keepIf_isSelfCopy hi hi'
    exact exists_advance_of_selfCopy hs hi hop (hbacked d hop)

/-- Simplified code runs as before where places that are copied to themselves have values. -/
theorem halts_peephole_iff (hs : settings.maxSteps = none) (hl : Linked functions code)
    {lines : List String}
    (hP : (Code.link ⟨code, functions⟩ settings).Always (OpAt Op.Backed code)
      ((Code.link ⟨code, functions⟩ settings).startPoint lines)) (o : RunOutcome) :
    (Code.link ⟨code, functions⟩ settings).Halts
        ((Code.link ⟨code, functions⟩ settings).startPoint lines) o ↔
      (Code.link ⟨(peephole code).code, functions⟩ settings).Halts
        ((Code.link ⟨(peephole code).code, functions⟩ settings).startPoint lines) o := by
  have hf : Follows functions settings Op.Backed code _ :=
    ((follows_decideBranches hs code).trans (follows_dropJumpsToNext hs _)).trans
      (follows_dropSelfCopies hs _)
  refine ((hf.runs hl lines hP).2 o).trans ?_
  -- What is joined with a copy may copy the variable to itself, so nothing is asked of it.
  exact (runs_joinCopies hs (read_of_single _) (hf.linked hl) (fun _ _ => True)
    (fun _ _ _ _ _ _ => id) (fun _ _ _ _ _ _ _ _ _ => id) fun _ _ _ _ => trivial).2 o

theorem linked_peephole (hl : Linked functions code) :
    Linked functions (peephole code).code :=
  have hp : Preserves functions {} (fun _ => False) (fun _ => False) code (peephole code).code :=
    preserves_peephole rfl code
  hp.linked hl

end

/-! ### Runs -/

namespace Code

variable {c : Code} {settings : MachineSettings} {image : Image}

/-- Simplified code can be made ready if the code before can.  Its runs end as they did before
unless that was with a fault for want of a value, and go on for ever if they did before. -/
theorem run_simplify (hs : settings.maxSteps = none) (hi : Image.ofCode c settings = .ok image) :
    ∃ image', Image.ofCode c.simplify settings = .ok image' ∧ ∀ lines,
      (∀ fuel o, image.run fuel lines = some o →
        (∀ q name, image.Reaches (image.startPoint lines) q →
          ¬ image.Faults q (.undefinedVariable name)) →
        ∃ fuel', image'.run fuel' lines = some o) ∧
      ((∀ fuel, image.run fuel lines = none) → ∀ fuel, image'.run fuel lines = none) := by
  obtain ⟨hl, rfl⟩ := ofCode_eq_ok_iff.1 hi
  refine ⟨c.simplify.link settings, ofCode_eq_ok_iff.2 ⟨linked_peephole hl, rfl⟩, fun lines =>
    ⟨fun fuel o ho hvalues => ?_, fun hever fuel => ?_⟩⟩
  · rw [Image.exists_run_iff]
    exact (halts_peephole_iff hs hl (always_backed hs hl hvalues) o).1
      (Image.exists_run_iff.1 ⟨fuel, ho⟩)
  · have hnever : ∀ o, ¬ (c.link settings).Halts ((c.link settings).startPoint lines) o := by
      intro o ho
      obtain ⟨fuel, ho⟩ := Image.exists_run_iff.2 ho
      rw [hever fuel] at ho
      cases ho
    have hvalues : ∀ q name, (c.link settings).Reaches ((c.link settings).startPoint lines) q →
        ¬ (c.link settings).Faults q (.undefinedVariable name) := by
      intro q name hq hfault
      obtain ⟨m, unread, hdone⟩ := hfault.advance
      exact hnever _ (.of_reaches hq (.done hdone))
    rw [Option.eq_none_iff_forall_ne_some]
    intro o ho
    exact hnever o ((halts_peephole_iff hs hl (always_backed hs hl hvalues) o).2
      (Image.exists_run_iff.1 ⟨fuel, ho⟩))

/-- Code that reads a number into a variable over a temporary, copies the variable to itself, and
goes on past a branch and a jump that both come to the next label. -/
def roundabout : Code where
  instrs := [⟨.input (.temp 0) .int, 1⟩, ⟨.copy (.var ⟨"x", .global⟩) (.place (.temp 0)), 1⟩,
    ⟨.copy (.var ⟨"x", .global⟩) (.place (.var ⟨"x", .global⟩)), 2⟩,
    ⟨.jumpIfFalse (.const (.bool true)) (.local 0), 3⟩, ⟨.jump (.local 0), 3⟩,
    ⟨.label (.local 0), 3⟩, ⟨.print (.place (.var ⟨"x", .global⟩)) true, 4⟩, ⟨.halt, 5⟩]
  functions := []

/-- Simplified, it prints the same number. -/
theorem run_simplify_roundabout : roundabout.simplify.instrs.length = 4 ∧
    ∃ image o image', Image.ofCode roundabout {} = .ok image ∧ image.run 12 ["7"] = some o ∧
      o.status = .halted .finished ∧ o.output = "7\n" ∧
      (∀ q name, image.Reaches (image.startPoint ["7"]) q →
        ¬ image.Faults q (.undefinedVariable name)) ∧
      Image.ofCode roundabout.simplify {} = .ok image' ∧
      ∃ fuel', image'.run fuel' ["7"] = some o := by
  obtain ⟨image, hi⟩ : ∃ image, Image.ofCode roundabout {} = .ok image := ⟨_, rfl⟩
  obtain ⟨o, ho, hstatus, hout⟩ : ∃ o, image.run 12 ["7"] = some o ∧
      o.status = .halted .finished ∧ o.output = "7\n" := by
    cases hi
    exact ⟨_, rfl, rfl, rfl⟩
  have hvalues : ∀ q name, image.Reaches (image.startPoint ["7"]) q →
      ¬ image.Faults q (.undefinedVariable name) := by
    intro q name hq hfault
    obtain ⟨m, unread, hdone⟩ := hfault.advance
    have heq := (Image.exists_run_iff.1 ⟨12, ho⟩).unique (.of_reaches hq (.done hdone))
    rw [heq, Image.faultOutcome, if_neg (by intro h; cases h)] at hstatus
    cases hstatus
  obtain ⟨image', hi', hruns⟩ := run_simplify rfl hi
  refine ⟨by decide +kernel, image, o, image', hi, ho, hstatus, hout, hvalues, hi', ?_⟩
  exact (hruns ["7"]).1 12 o ho hvalues

end Code

end NumericScript
