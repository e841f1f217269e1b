import NumericScript.Proofs.Arithmetic.Divisor
import NumericScript.Proofs.Fault

/-! # Computations that check their steps

The definitions by which the machine computes are total: an element outside of its list is some
element, and whole numbers wrap around.  Here the same computations are carried out in steps that
are not always defined.  They say where the machine relies on what is not there.

* `Checked`: computations with steps that may not be defined.
* `Agrees`: all steps of a computation are defined, and it gives what the machine computes.
* `Agrees.lcm`: the least common multiple is defined unless its quotient does not fit. -/

namespace NumericScript

/-- A computation that may fault, and that gives nothing at all if a step is not defined. -/
abbrev Checked (α : Type) : Type := ExceptT Fault Option α

/-- All steps of `x` are defined, and what `x` gives is `y`. -/
def Agrees {α : Type} (x : Checked α) (y : Except Fault α) : Prop := x.run = some y

namespace Agrees

variable {α β : Type} {x x' : Checked α} {y y' : Except Fault α}

theorem ok (a : α) : Agrees (pure a) (.ok a) := rfl

theorem error (f : Fault) : Agrees (throw f : Checked α) (.error f) := rfl

/-- A computation without steps of its own is defined. -/
theorem lift (y : Except Fault α) : Agrees (liftM y) y := rfl

theorem ofSome {o : Option α} {a : α} (h : o = some a) : Agrees (liftM o) (.ok a) := by
  subst h
  rfl

theorem bind {g : α → Checked β} {k : α → Except Fault β} (hx : Agrees x y)
    (hg : ∀ a, y = .ok a → Agrees (g a) (k a)) : Agrees (x >>= g) (y >>= k) := by
  change x.run.bind _ = _
  rw [show x.run = some y from hx]
  cases y with
  | ok a => exact hg a rfl
  | error f => rfl

theorem map {g : α → β} (hx : Agrees x y) :
    Agrees (do let a ← x; pure (g a)) (g <$> y) := by
  change x.run.bind _ = _
  rw [show x.run = some y from hx]
  cases y <;> rfl

/-- A step that is defined and cannot fault. -/
theorem step {o : Option α} {a : α} {g : α → Checked β} {z : Except Fault β} (h : o = some a)
    (hg : Agrees (g a) z) : Agrees (liftM o >>= g) z := by
  subst h
  exact hg

theorem ite {c : Prop} [Decidable c] (hx : c → Agrees x y) (hx' : ¬ c → Agrees x' y') :
    Agrees (if c then x else x') (if c then y else y') := by
  split
  · exact hx ‹_›
  · exact hx' ‹_›

end Agrees

/-! ### Lists -/

theorem mapM_eq_some_map {α β : Type} {l : List α} {f : α → Option β} {g : α → β}
    (h : ∀ a ∈ l, f a = some (g a)) : l.mapM f = some (l.map g) := by
  induction l with
  | nil => rfl
  | cons a l ih =>
    obtain ⟨ha, hl⟩ := List.forall_mem_cons.1 h
    rw [List.mapM_cons, ha, ih hl]
    rfl

/-- Steps that are defined as long as something holds which every step keeps. -/
theorem foldlM_eq_some_foldl {α β : Type} {l : List α} {f : β → α → Option β} {g : β → α → β}
    (I : β → Prop) {b : β} (hb : I b) (h : ∀ b, I b → ∀ a ∈ l, f b a = some (g b a) ∧ I (g b a)) :
    l.foldlM f b = some (l.foldl g b) ∧ I (l.foldl g b) := by
  induction l generalizing b with
  | nil => exact ⟨rfl, hb⟩
  | cons a l ih =>
    obtain ⟨ha, hI⟩ := h b hb a List.mem_cons_self
    rw [List.foldlM_cons, ha]
    exact ih hI fun b hb a ha => h b hb a (List.mem_cons_of_mem _ ha)

/-! ### Whole numbers -/

namespace Arithmetic

/-- The quotient of whole numbers, if there is one.  It wraps around if it does not fit. -/
def wrappingQuotient? (a b : Int64) : Option Int64 := if b = 0 then none else some (a / b)

/-- The remainder of whole numbers, if there is a quotient. -/
def wrappingRemainder? (a b : Int64) : Option Int64 := if b = 0 then none else some (a % b)

/-- The quotient of whole numbers, if there is one and it fits. -/
def quotient? (a b : Int64) : Option Int64 :=
  if b = 0 ∨ a = Int64.minValue ∧ b = -1 then none else some (a / b)

/-- The remainder of whole numbers, if there is a quotient and it fits. -/
def remainder? (a b : Int64) : Option Int64 :=
  if b = 0 ∨ a = Int64.minValue ∧ b = -1 then none else some (a % b)

/-- The product of whole numbers, if it fits. -/
def times? (a b : Int64) : Option Int64 :=
  if Int64.minValue.toInt ≤ a.toInt * b.toInt ∧ a.toInt * b.toInt ≤ Int64.maxValue.toInt then
    some (a * b)
  else none

theorem natAbs_mod_lt {a b : Int64} (hb : b ≠ 0) :
    (a % b).toInt.natAbs < b.toInt.natAbs := by
  have h : b.toInt ≠ 0 := fun h => hb (Int64.toInt_inj.1 h)
  rw [Int64.toInt_mod, Int.natAbs_tmod]
  exact Nat.mod_lt _ (by omega)

/-- A remainder is not the smallest whole number. -/
theorem mod_ne_minValue {a b : Int64} (hb : b ≠ 0) : a % b ≠ Int64.minValue := by
  intro h
  have hlt := natAbs_mod_lt (a := a) hb
  have hle := Int64.le_toInt b
  have hge := Int64.toInt_lt b
  rw [h] at hlt
  simp at hlt
  omega

end Arithmetic

namespace Builtin

open Arithmetic

/-- The greatest common divisor by remainders that are checked. -/
def gcdFrom? (a b : Int64) : Option Int64 :=
  if b = 0 then some a
  else
    match _h : remainder? a b with
    | some r => gcdFrom? b r
    | none => none
termination_by b.toInt.natAbs
decreasing_by
  unfold remainder? at _h
  split at _h
  · cases _h
  · cases _h
    exact natAbs_mod_lt ‹_›

/-- The greatest common divisor. -/
def gcd? (a b : Int64) : Option Int64 := gcdFrom? (absInt a) (absInt b)

/-- The least common multiple. -/
def lcm? (a b : Int64) : Option Int64 := do
  let divisor ← gcd? a b
  if divisor = 0 then return 0
  let quotient ← quotient? a divisor
  return absInt (quotient * b)

/-- The product of the numbers from 1 to `n`. -/
def factorial? (n : Nat) : Option Int64 :=
  (List.range n).foldlM (fun product k => times? product (Int64.ofNat (k + 1))) 1

/-- An absolute value is not negative unless it wraps around. -/
theorem absInt_cases (n : Int64) : 0 ≤ (absInt n).toInt ∨ absInt n = Int64.minValue := by
  by_cases hn : n = Int64.minValue
  · subst hn
    exact .inr (by decide +kernel)
  · exact .inl (absInt_nonneg hn)

/-- No remainder that does not fit is taken on the way from two numbers to their greatest common
divisor: neither now nor in the next step, and then all numbers are small. -/
structure Divisible (a b : Int64) : Prop where
  now : a = Int64.minValue → b ≠ -1
  next : b = Int64.minValue → a % b ≠ -1

theorem Divisible.mod {a b : Int64} (h : Divisible a b) (hb : b ≠ 0) : Divisible b (a % b) where
  now := h.next
  next := fun hr => absurd hr (mod_ne_minValue hb)

theorem divisible_absInt (a b : Int64) : Divisible (absInt a) (absInt b) where
  now := by
    rintro - h
    rcases absInt_cases b with hb | hb
    · rw [h] at hb
      exact absurd hb (by decide)
    · rw [h] at hb
      exact absurd hb (by decide)
  next := by
    intro hb h
    have hr := congrArg Int64.toInt h
    rw [Int64.toInt_mod, hb] at hr
    rcases absInt_cases a with ha | ha
    · have := Int.tmod_nonneg (Int64.minValue.toInt) ha
      rw [hr] at this
      exact absurd this (by decide)
    · rw [ha] at hr
      exact absurd hr (by decide)

/-- All remainders on the way to the greatest common divisor of such numbers fit. -/
theorem gcdFrom?_eq {a b : Int64} (h : Divisible a b) : gcdFrom? a b = some (gcdFrom a b) := by
  induction a, b using gcdFrom.induct with
  | case1 a b hb =>
    obtain rfl : b = 0 := Int64.toInt_inj.1 hb
    rw [gcdFrom?, gcdFrom, if_pos rfl, if_pos hb]
  | case2 a b hb ih =>
    have hb' : b ≠ 0 := fun h => hb (by rw [h]; rfl)
    have hr : remainder? a b = some (a % b) := by
      rw [remainder?, if_neg]
      rintro (h0 | ⟨ha, h1⟩)
      · exact hb' h0
      · exact h.now ha h1
    rw [gcdFrom?, gcdFrom, if_neg hb', if_neg hb]
    split
    · rename_i r hr'
      rw [hr] at hr'
      cases hr'
      exact ih (h.mod hb')
    · rename_i hr'
      rw [hr] at hr'
      cases hr'

theorem gcd?_eq (a b : Int64) : gcd? a b = some (gcdInt a b) :=
  gcdFrom?_eq (divisible_absInt a b)

/-- The least common multiple is defined unless its quotient does not fit. -/
theorem lcm?_eq {a b : Int64} (h : ¬ (a = Int64.minValue ∧ gcdInt a b = -1)) :
    Agrees (liftM (lcm? a b)) (lcmInt a b) := by
  unfold lcm? lcmInt
  rw [gcd?_eq]
  dsimp only [bind, Option.bind]
  rw [if_neg h]
  split
  · exact .ok 0
  · rename_i h0
    rw [quotient?, if_neg (not_or.2 ⟨h0, h⟩)]
    exact .ok _

theorem lcm?_eq_none {b : Int64} (h : gcdInt Int64.minValue b = -1) :
    lcm? Int64.minValue b = none := by
  unfold lcm?
  rw [gcd?_eq, h]
  rfl

theorem factorialNat_mono {m n : Nat} (h : m ≤ n) : factorialNat m ≤ factorialNat n := by
  induction h with
  | refl => exact Nat.le_refl _
  | step _ ih => exact Nat.le_trans ih (Nat.le_mul_of_pos_left _ (Nat.succ_pos _))

/-- The products on the way to the factorial of a number up to 20 fit. -/
theorem factorial?_eq {n : Nat} (h : n ≤ 20) :
    factorial? n = some (Int64.ofNat (factorialNat n)) := by
  induction n with
  | zero => rfl
  | succ n ih =>
    have hle : (n + 1) * factorialNat n ≤ factorialNat 20 := factorialNat_mono (m := n + 1) h
    have hfit : factorialNat 20 < 2 ^ 63 := by decide
    have hn : (Int64.ofNat (factorialNat n)).toInt = factorialNat n :=
      Int64.toInt_ofNat_of_lt (Nat.lt_of_le_of_lt (factorialNat_mono (by omega)) hfit)
    have hk : (Int64.ofNat (n + 1)).toInt = ↑(n + 1) := Int64.toInt_ofNat_of_lt (by omega)
    have hprod : (factorialNat n : Int) * ↑(n + 1) = ↑((n + 1) * factorialNat n) := by
      rw [Nat.mul_comm]
      push_cast
      rfl
    rw [factorial?, List.range_succ, List.foldlM_append]
    change (factorial? n >>= fun product => _) = _
    rw [ih (by omega)]
    change times? (Int64.ofNat (factorialNat n)) (Int64.ofNat (n + 1)) >>= _ = _
    rw [times?, hn, hk, hprod, if_pos, factorialNat, Nat.mul_comm, Int64.ofNat_mul]
    · rfl
    · simp only [Int64.toInt_minValue, Int64.toInt_maxValue]
      omega

end Builtin

end NumericScript
