import NumericScript.Proofs.Optimize.Exact
import NumericScript.Proofs.Session.Sound

/-! # What is known to be a number is one

The pass that replaces operations by cheaper ones keeps track of what surely holds a number.  Before
every instruction that a machine executes, in every run and whatever commands have led there, these
places hold numbers in the innermost frame, and what the last call gave is a number if that is kept
track of.  So no square becomes a product but that of a number.  Labels are passed and not executed,
and no operation is replaced there.

* `Scalars.Hold`: what is kept track of holds in a machine.
* `Image.ReadyAt`: the machines that are about to execute an instruction.
* `holds_scalarsAt`: what is kept track of holds in all of them. -/

namespace NumericScript

open Code (ofCode_eq_ok_iff)

variable {c : Code} {settings : MachineSettings} {image : Image}

/-- A place holds a number in the innermost frame, if it is a temporary or a local variable. -/
def Machine.HoldsNumber (m : Machine) (p : Place) : Prop :=
  ∃ v, m.read? p = some v ∧ v.isNumber = true

/-- What is kept track of holds in a machine. -/
structure Scalars.Hold (s : Scalars) (m : Machine) : Prop where
  places : ∀ p ∈ s.places, m.HoldsNumber p
  returned : s.returned = true → ∃ v, m.returned = some v ∧ v.isNumber = true

theorem Machine.read?_of_eval {m : Machine} {p : Place} {v : Value}
    (h : m.eval (.place p) = .ok v) : m.read? p = some v := by
  rw [eval, read] at h
  cases hp : m.read? p with
  | none => rw [hp] at h; cases h
  | some w => rw [hp] at h; cases h; rfl

theorem Machine.returned_of_eval {m : Machine} {v : Value} (h : m.eval .returned = .ok v) :
    m.returned = some v := by
  rw [eval] at h
  cases hr : m.returned with
  | none => rw [hr] at h; cases h
  | some w => rw [hr] at h; cases h; rfl

/-- What is known of operands before an instruction is what is kept track of. -/
theorem hold_of_claims {code : List Instr} {m : Machine} {i : Instr} (hi : code[m.pc]? = some i)
    (hl : i.op.label? = none) (h : (scalarClaims code m.pc).Hold m) :
    (scalarsAt .none code m.pc).Hold m where
  places p hp := by
    obtain ⟨v, hv, hn⟩ :=
      h _ _ (scalarClaims_of_holds hi hl (Scalars.holds_place.2 hp) nofun)
    exact ⟨v, Machine.read?_of_eval hv, hn⟩
  returned hr := by
    obtain ⟨v, hv, hn⟩ := h .returned _ (scalarClaims_of_holds hi hl hr nofun)
    exact ⟨v, Machine.returned_of_eval hv, hn⟩

/-- An operand that surely is a number, and is no constant, has a number for its value. -/
theorem Scalars.Hold.exists_number {s : Scalars} {m : Machine} {o : Operand} (h : s.Hold m)
    (ho : s.holds o = true) : ∃ v, m.eval o = .ok v ∧ v.isNumber = true := by
  cases o with
  | place p =>
    obtain ⟨v, hv, hn⟩ := h.places p (Scalars.holds_place.1 ho)
    exact ⟨v, by rw [Machine.eval, Machine.read, hv], hn⟩
  | returned =>
    obtain ⟨v, hv, hn⟩ := h.returned ho
    exact ⟨v, by rw [Machine.eval, hv], hn⟩
  | const c => exact ⟨_, rfl, by cases c <;> first | rfl | cases ho⟩

/-- A power that is replaced is a square, and surely one of a number. -/
theorem square_of_cheaper? {s : Scalars} {d : Place} {l r : Operand} {op : Op}
    (h : (Op.binary d .pow l r).cheaper? s = some op) :
    r = .const (.int 2) ∧ op = .binary d .mul l l ∧ s.holds l = true := by
  obtain ⟨d, f, l, r, hop, hc⟩ := cheaper_of_cheaper? h
  cases hop
  cases hc with
  | one_right hf => rcases hf with hf | hf <;> cases hf
  | square hs => exact ⟨rfl, rfl, hs⟩

/-- A machine is about to execute the instruction at position `k`: a run comes there, or commands
lead to a session that goes on from there. -/
structure Image.ReadyAt (image : Image) (k : Nat) (m : Machine) : Prop where
  pc : m.pc = k
  acts : image.acts m = true
  met : (∃ lines unread, image.Reaches (image.startPoint lines) ⟨m, unread⟩) ∨
    ∃ s, Session.Leads image (.start image) s ∧ s.status.canRun = true ∧ s.machine = m

/-- Sessions only come where runs come. -/
theorem Image.ReadyAt.exists_reaches {k : Nat} {m : Machine} (h : image.ReadyAt k m) :
    ∃ lines unread, image.Reaches (image.startPoint lines) ⟨m, unread⟩ := by
  obtain hruns | ⟨s, hs, hrun, rfl⟩ := h.met
  · exact hruns
  · obtain ⟨lines, past, m, hpasses, hm⟩ := hs.exists_passes
    rw [(Session.standsAt_of_canRun hrun).1 hm]
    exact ⟨lines, [], hpasses.reaches⟩

/-- What is kept track of holds before every instruction. -/
theorem hold_of_readyAt (himage : Image.ofCode c settings = .ok image) {k : Nat} {m : Machine}
    (h : image.ReadyAt k m) : (scalarsAt .none c.instrs k).Hold m := by
  obtain ⟨lines, unread, hq⟩ := h.exists_reaches
  obtain ⟨i, hi⟩ := Option.isSome_iff_exists.1 h.acts
  obtain ⟨hi, hlabel⟩ := Image.action?_eq_some.1 hi
  obtain ⟨hl, rfl⟩ := ofCode_eq_ok_iff.1 himage
  obtain rfl := h.pc
  exact hold_of_claims (by simpa [Code.link] using hi) hlabel (known_of_reaches hl hq).1

/-- What the pass keeps track of is right.  It replaces the operation at `k` by a cheaper one as far
as what it keeps track of there allows.  Whenever a machine is about to execute that instruction,
the places that are kept track of hold numbers in the innermost frame, and what the last call gave
is a number if that is kept track of.  And where the pass replaces a power, that is a square, and
what is squared is a number whenever a machine comes there, and never a matrix. -/
theorem holds_scalarsAt (himage : Image.ofCode c settings = .ok image) (k : Nat) :
    ((strength c.instrs).code[k]? = (c.instrs[k]?).map fun i =>
      { i with op := (i.op.cheaper? (scalarsAt .none c.instrs k)).getD i.op }) ∧
    (∀ m, image.ReadyAt k m → (scalarsAt .none c.instrs k).Hold m) ∧
    ∀ i j d l r, c.instrs[k]? = some i → (strength c.instrs).code[k]? = some j →
      i.op = .binary d .pow l r → j.op ≠ i.op →
        r = .const (.int 2) ∧ j.op = .binary d .mul l l ∧
          ∀ m, image.ReadyAt k m → ∃ v, m.eval l = .ok v ∧ v.isNumber = true := by
  refine ⟨getElem?_strengthFrom .none c.instrs k, fun m => hold_of_readyAt himage, ?_⟩
  intro i j d l r hi hj hop hne
  have hcheaper := (exists_cheaper_of_ne hi hj hne).1
  rw [hop] at hcheaper
  obtain ⟨hr, hj, hl⟩ := square_of_cheaper? hcheaper
  exact ⟨hr, hj, fun m hm => (hold_of_readyAt himage hm).exists_number hl⟩

/-- Code that squares a number that it reads, the absolute value of the square, and a
matrix. -/
def squaring : Code where
  instrs := [⟨.newMatrix (.var ⟨"a", .global⟩) 2 3, 1⟩, ⟨.input (.var ⟨"n", .global⟩) .float, 2⟩,
    ⟨.binary (.temp 0) .pow (.place (.var ⟨"n", .global⟩)) (.const (.int 2)), 3⟩,
    ⟨.param (.place (.temp 0)), 4⟩, ⟨.call (.builtin .abs) 1, 4⟩,
    ⟨.binary (.temp 1) .pow .returned (.const (.int 2)), 4⟩,
    ⟨.binary (.temp 2) .pow (.place (.var ⟨"a", .global⟩)) (.const (.int 2)), 5⟩, ⟨.halt, 5⟩]
  functions := []

/-- The squares of numbers become products.  A machine comes to both of them, and there are numbers
there. -/
theorem holds_scalarsAt_squaring : ∃ image, Image.ofCode squaring {} = .ok image ∧
    (strength squaring.instrs).code[2]? =
      some ⟨.binary (.temp 0) .mul (.place (.var ⟨"n", .global⟩))
        (.place (.var ⟨"n", .global⟩)), 3⟩ ∧
    (∃ m, image.ReadyAt 2 m ∧ m.HoldsNumber (.var ⟨"n", .global⟩)) ∧
    (strength squaring.instrs).code[5]? = some ⟨.binary (.temp 1) .mul .returned .returned, 4⟩ ∧
    (∃ m v, image.ReadyAt 5 m ∧ m.eval .returned = .ok v ∧ v.isNumber = true) ∧
    (strength squaring.instrs).code[6]? = squaring.instrs[6]? := by
  obtain ⟨image, himage⟩ : ∃ image, Image.ofCode squaring {} = .ok image := ⟨_, rfl⟩
  have hready : ∀ k n, ((image.trail n (image.startPoint ["1.5"])).map fun x =>
      (x.2.machine.pc, image.acts x.2.machine)) = some (k, true) → ∃ m, image.ReadyAt k m := by
    intro k n h
    obtain ⟨x, hx, h⟩ := Option.map_eq_some_iff.1 h
    obtain ⟨hpc, hacts⟩ := Prod.mk.inj h
    exact ⟨_, hpc, hacts, .inl ⟨_, _, (Image.passes_of_trail hx).reaches⟩⟩
  obtain ⟨m, hm⟩ := hready 2 2 (by cases himage; decide +kernel)
  obtain ⟨m', hm'⟩ := hready 5 5 (by cases himage; decide +kernel)
  obtain ⟨-, hhold, -⟩ := holds_scalarsAt himage 2
  obtain ⟨-, -, hsquare⟩ := holds_scalarsAt himage 5
  obtain ⟨-, -, hnumber⟩ := hsquare _ _ _ _ _ rfl rfl rfl nofun
  obtain ⟨v, hv⟩ := hnumber m' hm'
  exact ⟨image, himage, rfl, ⟨m, hm, (hhold m hm).places _ (by decide)⟩, rfl, ⟨m', v, hm', hv⟩, rfl⟩

end NumericScript
