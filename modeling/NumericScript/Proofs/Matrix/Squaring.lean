import Mathlib.Tactic.Choose
import NumericScript.Proofs.Checked.Matrix

/-! # Powers by squaring

A power is found by squaring: the factor is squared again and again, and the squares that the bits
of the exponent ask for are multiplied.  With doubles, products do not associate in general.  As far
as the products of powers do, the result is that of multiplying one factor at a time.

* `Matrix.repeated`: one factor at a time.
* `Matrix.powerFrom_factor?`: the loop, with the exponents for which its matrices stand.
* `Matrix.power_eq_repeated`: powers, also with negative exponents. -/

namespace NumericScript.Matrix

variable {m : Matrix} {n : Nat}

/-- The product of `n` factors `m`, each multiplied to those before it. -/
def repeated (m : Matrix) : Nat → Except Fault Matrix
  | 0 => .ok (identity m.rows)
  | 1 => .ok m
  | n + 2 => do (← m.repeated (n + 1)).multiply m

/-- The products of powers of `m` are powers again, as far as the power `n`. -/
def PowersAssociate (m : Matrix) (n : Nat) : Prop :=
  ∀ i j a b, 1 ≤ i → 1 ≤ j → i + j ≤ n → m.repeated i = .ok a → m.repeated j = .ok b →
    a.multiply b = m.repeated (i + j)

/-- A square can be multiplied by itself as often as one likes. -/
theorem exists_repeated (h : m.rows = m.cols) (n : Nat) :
    ∃ a, m.repeated n = .ok a ∧ a.rows = m.rows ∧ a.cols = m.rows := by
  induction n using repeated.induct with
  | case1 => exact ⟨_, rfl, rfl, rfl⟩
  | case2 => exact ⟨m, rfl, rfl, h.symm⟩
  | case3 n ih =>
    obtain ⟨a, ha, hrows, hcols⟩ := ih
    refine ⟨a.product m, ?_, hrows, h.symm⟩
    rw [repeated, ha]
    exact if_pos hcols

section

variable {P : Nat → Matrix} {k : Nat} {acc : Option Matrix} {j s : Nat}

/-- The matrix for an exponent, of which there is none for zero. -/
def factor? (P : Nat → Matrix) (j : Nat) : Option Matrix := if j = 0 then none else some (P j)

/-- A factor more if the exponent is odd. -/
theorem accumulate_factor?
    (hP : ∀ i j, 1 ≤ i → 1 ≤ j → i + j ≤ k → (P i).product (P j) = P (i + j)) (hs : 1 ≤ s)
    (hk : j + s * (n % 2) ≤ k) :
    accumulate (factor? P j) (P s) n = factor? P (j + s * (n % 2)) := by
  unfold accumulate
  split
  · rename_i hodd
    rw [hodd, Nat.mul_one] at hk ⊢
    rw [factor?, factor?, if_neg (by omega : j + s ≠ 0)]
    by_cases hj : j = 0
    · rw [if_pos hj, hj, Nat.zero_add]
    · rw [if_neg hj]
      exact congrArg some (hP j s (by omega) hs hk)
  · rw [Nat.mod_two_ne_one.1 ‹_›, Nat.mul_zero, Nat.add_zero]

/-- The loop of squaring.  Its factor stands for the exponent `s`, and what has been multiplied so
far for the exponent `j`; no matrix that is made stands for more than `j + s * n`, and the one that
is given stands for just that. -/
theorem powerFrom_factor?
    (hP : ∀ i j, 1 ≤ i → 1 ≤ j → i + j ≤ k → (P i).product (P j) = P (i + j)) (hs : 1 ≤ s)
    (hn : 1 ≤ n) (hk : j + s * n ≤ k) :
    powerFrom (factor? P j) (P s) n = some (P (j + s * n)) := by
  -- The exponent is halved, and the factor squared; what goes over to `j` makes up for the rest.
  induction n using Nat.strongRecOn generalizing j s with
  | ind n ih =>
    have hsplit : s * (n % 2) + (s + s) * (n / 2) = s * n := by
      rw [← Nat.two_mul, Nat.mul_comm 2 s, Nat.mul_assoc, ← Nat.mul_add, Nat.mod_add_div]
    rw [powerFrom_eq, accumulate_factor? hP hs (by omega)]
    split
    · have hone : n = 1 := by omega
      rw [hone, factor?, if_neg (by omega)]
    · have htwice : s + s ≤ (s + s) * (n / 2) := Nat.le_mul_of_pos_right _ (by omega)
      rw [hP s s hs hs (by omega), ih (n / 2) (by omega) (by omega) (by omega) (by omega),
        Nat.add_assoc, hsplit]

end

theorem PowersAssociate.powerFrom_eq (h : m.rows = m.cols) (hn : 1 ≤ n)
    (hm : m.PowersAssociate n) : ∃ r, m.repeated n = .ok r ∧ powerFrom none m n = some r := by
  choose P hP hrows hcols using exists_repeated h
  have hproduct i j (hi : 1 ≤ i) (hj : 1 ≤ j) (hij : i + j ≤ n) :
      (P i).product (P j) = P (i + j) := by
    have hmul := hm i j (P i) (P j) hi hj hij (hP i) (hP j)
    rw [hP, multiply, if_pos ((hcols i).trans (hrows j).symm)] at hmul
    exact Except.ok.inj hmul
  have hone : m = P 1 := Except.ok.inj (hP 1)
  have hloop := powerFrom_factor? (j := 0) hproduct (Nat.le_refl 1) hn (by omega)
  rw [Nat.zero_add, Nat.one_mul, ← hone] at hloop
  exact ⟨P n, hP n, hloop⟩

theorem power_of_pos (h : m.rows = m.cols) {k : Int64} (hk : 1 ≤ k.toInt) :
    m.power k = .ok ((powerFrom none m k.toInt.natAbs).getD (identity m.rows)) := by
  rw [power, requireSquare, if_pos h]
  change (if k.toInt = 0 then _ else _) = _
  rw [if_neg (by omega), if_neg (by omega)]
  rfl

theorem power_of_neg (h : m.rows = m.cols) {k : Int64} (hk : k.toInt < 0) :
    m.power k = m.inverse >>= fun b =>
      .ok ((powerFrom none b k.toInt.natAbs).getD (identity m.rows)) := by
  rw [power, requireSquare, if_pos h]
  change (if k.toInt = 0 then _ else _) = _
  rw [if_neg (by omega), if_pos hk]
  rfl

/-- A power of a square is the product of as many factors as the exponent says, as far as the
products of powers associate.  With a negative exponent the factors are inverses; and if there is no
inverse, the fault is that of inverting. -/
theorem power_eq_repeated (h : m.rows = m.cols) (k : Int64) :
    (1 ≤ k.toInt → m.PowersAssociate k.toInt.natAbs →
      ∃ r, m.repeated k.toInt.natAbs = .ok r ∧ m.power k = .ok r) ∧
    (k.toInt < 0 →
      (∀ b, m.inverse = .ok b → b.PowersAssociate k.toInt.natAbs →
        ∃ r, b.repeated k.toInt.natAbs = .ok r ∧ m.power k = .ok r) ∧
      ∀ f, m.inverse = .error f → m.power k = .error f) := by
  refine ⟨fun hk hm => ?_, fun hk => ⟨fun b hb hassoc => ?_, fun f hf => ?_⟩⟩
  · obtain ⟨r, hr, hpower⟩ := hm.powerFrom_eq h (by omega)
    rw [power_of_pos h hk, hpower]
    exact ⟨r, hr, rfl⟩
  · have hsquared := squared_inverse hb
    have hsquare : b.rows = b.cols := hsquared.rows.trans hsquared.cols.symm
    obtain ⟨r, hr, hpower⟩ := hassoc.powerFrom_eq hsquare (by omega)
    refine ⟨r, hr, ?_⟩
    rw [power_of_neg h hk, hb]
    change Except.ok ((powerFrom none b _).getD _) = _
    rw [hpower]
    rfl
  · rw [power_of_neg h hk, hf]
    rfl

/-- The matrix that exchanges two coordinates. -/
def exchange : Matrix := ofFn 2 2 fun r c => if r = c then 0.0 else 1.0

/-- What exchanging `n` times comes to. -/
def exchanged (n : Nat) : Matrix := if n % 2 = 0 then identity 2 else exchange

theorem multiply_exchanged (i j : Nat) :
    (exchanged i).multiply (exchanged j) = .ok (exchanged (i + j)) := by
  unfold exchanged
  obtain hi | hi := Nat.mod_two_eq_zero_or_one i
  · obtain hj | hj := Nat.mod_two_eq_zero_or_one j
    · rw [hi, hj, (by omega : (i + j) % 2 = 0)]
      rfl
    · rw [hi, hj, (by omega : (i + j) % 2 = 1)]
      rfl
  · obtain hj | hj := Nat.mod_two_eq_zero_or_one j
    · rw [hi, hj, (by omega : (i + j) % 2 = 1)]
      rfl
    · rw [hi, hj, (by omega : (i + j) % 2 = 0)]
      rfl

theorem repeated_exchange (n : Nat) : exchange.repeated n = .ok (exchanged n) := by
  induction n using repeated.induct with
  | case1 => rfl
  | case2 => rfl
  | case3 n ih =>
    rw [repeated, ih]
    exact multiply_exchanged (n + 1) 1

/-- Exchanging is its own inverse, and exchanging `2 ^ 63` times comes to nothing. -/
theorem power_eq_repeated_exchange :
    exchange.rows = exchange.cols ∧ exchange.inverse = .ok exchange ∧
    exchange.PowersAssociate (2 ^ 63) ∧
    exchange.power Int64.minValue = .ok (identity 2) ∧
    exchange.power Int64.maxValue = .ok exchange ∧
    (zeros 3 3).power (-1) = .error .singularMatrix := by
  have hinverse : exchange.inverse = .ok exchange := rfl
  have hassoc (n : Nat) : exchange.PowersAssociate n := by
    intro i j a b _ _ _ ha hb
    rw [repeated_exchange] at ha hb ⊢
    cases ha
    cases hb
    exact multiply_exchanged i j
  refine ⟨rfl, hinverse, hassoc _, ?_, ?_, ?_⟩
  · obtain ⟨r, hr, hpower⟩ :=
      ((power_eq_repeated rfl Int64.minValue).2 (by decide)).1 exchange hinverse (hassoc _)
    rw [hpower, ← hr, repeated_exchange]
    rfl
  · obtain ⟨r, hr, hpower⟩ :=
      (power_eq_repeated rfl Int64.maxValue).1 (by decide) (hassoc _)
    rw [hpower, ← hr, repeated_exchange]
    rfl
  · exact ((power_eq_repeated (m := zeros 3 3) rfl (-1)).2 (by decide)).2 _ rfl

end NumericScript.Matrix
