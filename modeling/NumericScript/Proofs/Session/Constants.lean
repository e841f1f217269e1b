import NumericScript.Proofs.Optimize.Constants
import NumericScript.Proofs.Session.Mirror

/-! # Computing constants ahead changes no session

Folding and propagation keep every instruction in its place, and what they put there acts in
every machine that the code can come to as the instruction did.  So a host that gives the same
commands sees the same session after each of them, whatever the settings are and whether or not
the program ends: the same machine, status and diagnostics, and the same lines.

* `mirrors_folding`, `mirrors_propagation`: the code after a pass mirrors the code before it.
* `Computed.indistinguishable`: sessions are the same after any number of these passes. -/

namespace NumericScript

variable {functions : List FunctionInfo} {settings : MachineSettings} {code code' : List Instr}

/-! ### What is known along a session -/

/-- What is found out holds whenever a session goes on, whatever the settings are. -/
theorem Sound.keeps {claims : Nat → Claims} (h : Sound code claims) (hd : (labelsIn code).Nodup)
    (hzero : ∀ o, claims 0 o = none) :
    (Code.link ⟨code, functions⟩ settings).Keeps (Known claims) where
  start := known_start hzero _ _
  running := by
    intro m m' hm hstep
    obtain ⟨i, hi, ⟨hl, rfl⟩ | ⟨hl, hgo⟩⟩ := Machine.step_eq_running hstep
    all_goals replace hi : code[m.pc]? = some i := by simpa [Code.link] using hi
    · exact h.known_of_label hm hi hl
    · exact h.known_of_goes hd (hm.noted i.line) (by rw [Machine.pc_noted]; exact hi) hgo
  answered := by
    intro m m' dest ty line v hm hstep hv
    obtain ⟨i, hi, hop, rfl⟩ := Machine.step_eq_awaiting hstep
    replace hi : code[m.pc]? = some i := by simpa [Code.link] using hi
    exact h.known_of_input (hm.noted i.line) (by rw [Machine.pc_noted]; exact hi) hop hv

/-! ### Code whose instructions keep their places -/

theorem positions_congr
    (h : List.Forall₂ (fun i i' : Instr => i'.op.label? = i.op.label?) code code')
    (index : Nat) : Code.positions index code' = Code.positions index code := by
  induction h generalizing index with
  | nil => rfl
  | @cons i i' is is' hi _ ih => rw [Code.positions, Code.positions, hi, ih]

/-- The instructions of the code at hand play no part in what an operation does. -/
theorem Machine.execute_instrs (image : Image) (instrs : Array Instr) (m : Machine) (op : Op) :
    m.execute { image with instrs := instrs } op = m.execute image op := by
  cases op <;> rfl

/-- The machine makes the same step in two pieces of code if the instructions at hand have the
same line and label and act alike. -/
theorem Machine.step_congr {image image' : Image} {m : Machine} {i i' : Instr}
    (hi : image.instrs[m.pc]? = some i) (hi' : image'.instrs[m.pc]? = some i')
    (hs : image'.settings = image.settings) (hline : i'.line = i.line)
    (hlabel : i'.op.label? = i.op.label?)
    (hact : i.op.label? = none →
      (m.noted i.line).execute image' i'.op = (m.noted i.line).execute image i.op) :
    m.step image' = m.step image := by
  rw [step, step, hi, hi']
  dsimp only
  rw [hlabel]
  split
  · rfl
  · rename_i hl
    have hexec := hact (by simpa using hl)
    unfold noted at hexec
    simp only [perform, hs, hline, hexec]

/-- Code mirrors other code if its instructions keep their lines and labels, and act as they
did. -/
theorem mirrors_link {ok : Machine → Prop}
    (hkeep : List.Forall₂ KeepsJumps code (code'.map some))
    (hact : ∀ image m i i', ok m → code[m.pc]? = some i → code'[m.pc]? = some i' →
      i.op.label? = none →
      (m.noted i.line).execute image i'.op = (m.noted i.line).execute image i.op) :
    (Code.link ⟨code', functions⟩ settings).Mirrors (Code.link ⟨code, functions⟩ settings) ok := by
  rw [List.forall₂_map_right_iff] at hkeep
  have hlink : Code.link ⟨code', functions⟩ settings =
      { Code.link ⟨code, functions⟩ settings with instrs := code'.toArray } := by
    have hpos := positions_congr (hkeep.imp fun _ _ h => h.2.1) 0
    simp only [Code.link, hpos]
  have hlen := hkeep.length_eq
  refine ⟨fun k => ?_, rfl, fun m hok => ?_⟩
  · by_cases hk : k < code.length
    · have hk' : k < code'.length := by omega
      obtain ⟨hline, hlabel, -⟩ := hkeep.get hk hk'
      simp only [List.get_eq_getElem] at hline hlabel
      simp [Code.link, hk, hk', Instr.face, hline, hlabel]
    · have hk' : ¬ k < code'.length := by omega
      simp [Code.link, hk, hk']
  · by_cases hk : m.pc < code.length
    · have hk' : m.pc < code'.length := by omega
      obtain ⟨hline, hlabel, -⟩ := hkeep.get hk hk'
      refine Machine.step_congr (by simp [Code.link, hk]) (by simp [Code.link, hk']) rfl hline
        hlabel fun hl => ?_
      rw [hlink, Machine.execute_instrs]
      exact hact _ m _ _ hok (List.getElem?_eq_getElem hk) (List.getElem?_eq_getElem hk') hl
    · have hk' : ¬ m.pc < code'.length := by omega
      rw [Machine.step, Machine.step]
      simp [Code.link, hk, hk']

/-! ### The two passes -/

theorem mirrors_folding : (Code.link ⟨(folding code).code, functions⟩ settings).Mirrors
    (Code.link ⟨code, functions⟩ settings) fun _ => True := by
  refine mirrors_link (keepsJumps_folding code) fun image m i i' _ hi hi' _ => ?_
  have hfold : i' = { i with op := i.op.fold } := by
    rw [folding, List.getElem?_map, hi] at hi'
    exact (Option.some.inj hi').symm
  rw [hfold, Machine.execute_fold]

theorem mirrors_propagation : (Code.link ⟨(propagation code).code, functions⟩ settings).Mirrors
    (Code.link ⟨code, functions⟩ settings) (Known (factClaims code)) := by
  refine mirrors_link (keepsJumps_propagation code) fun image m i i' hm hi hi' hl => ?_
  have hreplaced := eq_of_getElem?_propagation (o := some i') hi (by simp [hi'])
  cases hreplaced
  refine Machine.execute_propagate (fun o => Facts.eval_replace (fun p c hc => ?_) o) image i.op
  rw [Machine.eval_noted]
  exact get?_of_hold hi hl hm.1 p c hc

/-! ### Any number of passes -/

/-- Code after any number of the two passes, in any order. -/
inductive Computed (code : List Instr) : List Instr → Prop where
  | refl : Computed code code
  | fold {code' : List Instr} (h : Computed code code') : Computed code (folding code').code
  | propagate {code' : List Instr} (h : Computed code code') :
    Computed code (propagation code').code

/-- Computing constants ahead leaves code linked. -/
theorem Computed.linked (h : Computed code code') (hl : Linked functions code) :
    Linked functions code' := by
  induction h with
  | refl => exact hl
  | @fold code' _ ih =>
    rw [← reduceOption_map_some (folding code').code]
    exact ih.of_keepsJumps (keepsJumps_folding code')
  | @propagate code' _ ih =>
    rw [← reduceOption_map_some (propagation code').code]
    exact ih.of_keepsJumps (keepsJumps_propagation code')

/-- Computing constants ahead is not seen.  Code that can be made ready can be made ready after
it, and a host that gives the same commands cannot tell which of the two it is. -/
theorem Computed.indistinguishable {c : Code} {image : Image} (h : Computed c.instrs code')
    (hi : Image.ofCode c settings = .ok image) :
    ∃ image', Image.ofCode { c with instrs := code' } settings = .ok image' ∧
      image'.SameSessions image := by
  obtain ⟨hl, rfl⟩ := Code.ofCode_eq_ok_iff.1 hi
  refine ⟨_, Code.ofCode_eq_ok_iff.2 ⟨h.linked hl, rfl⟩, ?_⟩
  induction h with
  | refl => exact .refl _
  | fold h ih =>
    exact (mirrors_folding.sameSessions (.trivial _)).trans ih
  | propagate h ih =>
    have hdistinct := (h.linked hl).distinct
    refine (mirrors_propagation.sameSessions ?_).trans ih
    exact (sound_factClaims _).keeps hdistinct (factClaims_zero _)

/-- Code that prints a product by way of a variable. -/
def product : Code where
  instrs := [⟨.assign (.var ⟨"x", .global⟩) (.int 3), 1⟩,
    ⟨.binary (.temp 0) .mul (.const (.int 2)) (.place (.var ⟨"x", .global⟩)), 2⟩,
    ⟨.print (.place (.temp 0)) true, 2⟩, ⟨.halt, 2⟩]
  functions := []

/-- After propagation and folding it prints a temporary that was assigned the product, and no
session shows that. -/
theorem Computed.indistinguishable_product :
    (folding (propagation product.instrs).code).code[1]? =
      some ⟨.assign (.temp 0) (.int 6), 2⟩ ∧
    ∃ image', Image.ofCode
        { product with instrs := (folding (propagation product.instrs).code).code } {} =
          .ok image' ∧
      image'.SameSessions (product.link {}) := by
  have hready : Image.ofCode product {} = .ok (product.link {}) := rfl
  exact ⟨by decide +kernel, indistinguishable (.fold (.propagate .refl)) hready⟩

end NumericScript
