import Mathlib.Algebra.Group.Nat.Defs
import NumericScript.Builtin.Call

/-! # Divisors and multiples

The remainders by which the greatest common divisor is found are taken of numbers with signs, of 64
bits.  A remainder has the size of that of the sizes, so the size of what is found is always right;
its sign is too unless an absolute value wraps around.  The least common multiple divides before it
multiplies, and all it computes on the way is no greater in size than the result.

* `Builtin.natAbs_gcdInt`: the size of the greatest common divisor, whatever the numbers.
* `Builtin.lcmInt_eq_ok`: the least common multiple, where it fits.
* `Builtin.call_gcd_lcm`: what the builtins give for all but the smallest number. -/

namespace NumericScript.Builtin

/-! ### Absolute values -/

theorem natAbs_absInt (n : Int64) : (absInt n).toInt.natAbs = n.toInt.natAbs := by
  have hle := Int64.le_toInt n
  have hlt := Int64.toInt_lt n
  unfold absInt
  split
  · rw [Int64.toInt_neg]
    by_cases hn : n.toInt = -2 ^ 63
    · rw [hn]
      decide
    · rw [Int.bmod_eq_of_le (by omega) (by omega), Int.natAbs_neg]
  · rfl

theorem absInt_nonneg {n : Int64} (h : n ≠ Int64.minValue) : 0 ≤ (absInt n).toInt := by
  have hle := Int64.le_toInt n
  have hne : n.toInt ≠ -2 ^ 63 := fun hn => h (Int64.toInt_inj.1 hn)
  unfold absInt
  split
  · rw [Int64.toInt_neg, Int.bmod_eq_of_le (by omega) (by omega)]
    omega
  · omega

/-- But for the smallest number, absolute values do not wrap around. -/
theorem toInt_absInt {n : Int64} (h : n ≠ Int64.minValue) :
    (absInt n).toInt = n.toInt.natAbs := by
  rw [← natAbs_absInt, Int.natAbs_of_nonneg (absInt_nonneg h)]

/-! ### The greatest common divisor -/

/-- Remainders of numbers with signs have the sizes of the remainders of the sizes. -/
theorem natAbs_gcdFrom (a b : Int64) : (gcdFrom a b).toInt.natAbs = Int.gcd a.toInt b.toInt := by
  induction a, b using gcdFrom.induct with
  | case1 a b hb =>
    rw [gcdFrom, if_pos hb, hb, Int.gcd_zero_right]
  | case2 a b hb ih =>
    rw [gcdFrom, if_neg hb, ih, Int64.toInt_mod]
    calc Int.gcd b.toInt (a.toInt.tmod b.toInt)
        = Nat.gcd (a.toInt.natAbs % b.toInt.natAbs) b.toInt.natAbs := by
          rw [Int.gcd, Int.natAbs_tmod, Nat.gcd_comm]
      _ = Int.gcd a.toInt b.toInt := by rw [← Nat.gcd_rec, Nat.gcd_comm, Int.gcd]

theorem gcdFrom_nonneg {a b : Int64} (ha : 0 ≤ a.toInt) (hb : 0 ≤ b.toInt) :
    0 ≤ (gcdFrom a b).toInt := by
  induction a, b using gcdFrom.induct with
  | case1 a b h => rwa [gcdFrom, if_pos h]
  | case2 a b h ih =>
    rw [gcdFrom, if_neg h]
    exact ih hb (by rw [Int64.toInt_mod]; exact Int.tmod_nonneg _ ha)

/-- The size of the greatest common divisor is right, whatever the numbers. -/
theorem natAbs_gcdInt (a b : Int64) : (gcdInt a b).toInt.natAbs = Int.gcd a.toInt b.toInt := by
  rw [gcdInt, natAbs_gcdFrom, Int.gcd, natAbs_absInt, natAbs_absInt, Int.gcd]

variable {a b : Int64}

theorem toInt_gcdInt (ha : a ≠ Int64.minValue) (hb : b ≠ Int64.minValue) :
    (gcdInt a b).toInt = Int.gcd a.toInt b.toInt := by
  rw [← natAbs_gcdInt]
  exact (Int.natAbs_of_nonneg (gcdFrom_nonneg (absInt_nonneg ha) (absInt_nonneg hb))).symm

theorem gcdInt_eq_zero_iff : gcdInt a b = 0 ↔ a = 0 ∧ b = 0 := by
  have hzero (n : Int64) : n = 0 ↔ n.toInt = 0 := Int64.toInt_inj.symm
  rw [hzero, ← Int.natAbs_eq_zero, natAbs_gcdInt, Int.gcd_eq_zero_iff, hzero a, hzero b]

/-! ### The least common multiple -/

/-- The quotient by the greatest common divisor, times the other number, has the size of the least
common multiple. -/
theorem natAbs_tdiv_gcd_mul (m n : Int) :
    (m.tdiv (Int.gcd m n) * n).natAbs = Int.lcm m n := by
  rw [Int.natAbs_mul, Int.natAbs_tdiv, Int.natAbs_natCast]
  exact Nat.div_mul_right_comm (Int.gcd_dvd_natAbs_left m n) n.natAbs

/-- Dividing by a number above zero cannot fail. -/
theorem lcmInt_of_ne_minValue (ha : a ≠ Int64.minValue) :
    lcmInt a b = .ok (if gcdInt a b = 0 then 0 else absInt (a / gcdInt a b * b)) := by
  unfold lcmInt
  dsimp only
  split
  · rfl
  · rw [if_neg fun h => ha h.1]

/-- The least common multiple, where it fits.  Nothing on the way to it wraps around. -/
theorem lcmInt_eq_ok (ha : a ≠ Int64.minValue) (hb : b ≠ Int64.minValue)
    (hfit : Int.lcm a.toInt b.toInt < 2 ^ 63) :
    ∃ l, lcmInt a b = .ok l ∧ l.toInt = Int.lcm a.toInt b.toInt := by
  rw [lcmInt_of_ne_minValue ha]
  refine ⟨_, rfl, ?_⟩
  split
  · rename_i h0
    obtain ⟨rfl, rfl⟩ := gcdInt_eq_zero_iff.1 h0
    rfl
  · have hsize := natAbs_tdiv_gcd_mul a.toInt b.toInt
    have hquotient : (a / gcdInt a b).toInt = a.toInt.tdiv (Int.gcd a.toInt b.toInt) := by
      rw [Int64.toInt_div_of_ne_left _ _ ha, toInt_gcdInt ha hb]
    have hproduct : (a / gcdInt a b * b).toInt =
        a.toInt.tdiv (Int.gcd a.toInt b.toInt) * b.toInt := by
      rw [Int64.toInt_mul, hquotient]
      exact Int.bmod_eq_of_le (by omega) (by omega)
    have hne : a / gcdInt a b * b ≠ Int64.minValue := by
      intro h
      rw [h, Int64.toInt_minValue] at hproduct
      omega
    rw [toInt_absInt hne, hproduct, hsize]

/-! ### The builtins -/

/-- For all whole numbers but the smallest, `gcd` gives their greatest common divisor: it is not
negative, divides both numbers, is divided by whatever divides both, and is zero only if both are.
And `lcm` gives a number, which is their least common multiple if that is a whole number of 64 bits,
and zero if one of them is zero. -/
theorem call_gcd_lcm (ha : a ≠ Int64.minValue) (hb : b ≠ Int64.minValue) (mode : AngleMode) :
    (∃ d : Int64, call gcd [.int a, .int b] mode = .ok (.int d, mode) ∧
      0 ≤ d.toInt ∧ d.toInt ∣ a.toInt ∧ d.toInt ∣ b.toInt ∧
      (∀ k : Int, k ∣ a.toInt → k ∣ b.toInt → k ∣ d.toInt) ∧ (d = 0 ↔ a = 0 ∧ b = 0)) ∧
    ∃ l : Int64, call lcm [.int a, .int b] mode = .ok (.int l, mode) ∧
      (Int.lcm a.toInt b.toInt < 2 ^ 63 → l.toInt = Int.lcm a.toInt b.toInt) ∧
      (a = 0 ∨ b = 0 → l = 0) := by
  constructor
  · have hd := toInt_gcdInt ha hb
    refine ⟨gcdInt a b, rfl, ?_, ?_, ?_, ?_, gcdInt_eq_zero_iff⟩
    · omega
    · exact hd ▸ Int.gcd_dvd_left a.toInt b.toInt
    · exact hd ▸ Int.gcd_dvd_right a.toInt b.toInt
    · exact fun k hka hkb => hd ▸ Int.dvd_coe_gcd hka hkb
  · obtain ⟨l, hl, hfits⟩ : ∃ l, lcmInt a b = .ok l ∧
        (Int.lcm a.toInt b.toInt < 2 ^ 63 → l.toInt = Int.lcm a.toInt b.toInt) := by
      by_cases hfit : Int.lcm a.toInt b.toInt < 2 ^ 63
      · obtain ⟨l, hl, hvalue⟩ := lcmInt_eq_ok ha hb hfit
        exact ⟨l, hl, fun _ => hvalue⟩
      · exact ⟨_, lcmInt_of_ne_minValue ha, fun h => absurd h hfit⟩
    refine ⟨l, ?_, hfits, fun hzero => ?_⟩
    · change (do
        let v ← (do let n ← lcmInt a b; return Value.int n : Except Fault Value)
        return (v, mode)) = _
      rw [hl]
      rfl
    · have hlcm : Int.lcm a.toInt b.toInt = 0 := by
        rcases hzero with rfl | rfl
        · exact Int.lcm_zero_left _
        · exact Int.lcm_zero_right _
      exact Int64.toInt_inj.1 ((hfits (by omega)).trans (by rw [hlcm]; rfl))

/-- The signs of the numbers do not matter. -/
theorem call_gcd_lcm_signed :
    ((-12 : Int64) ≠ Int64.minValue ∧ (18 : Int64) ≠ Int64.minValue) ∧
    call gcd [.int (-12), .int 18] .radians = .ok (.int 6, .radians) ∧
    call lcm [.int (-12), .int 18] .radians = .ok (.int 36, .radians) := by
  have ha : (-12 : Int64) ≠ Int64.minValue := by decide
  have hb : (18 : Int64) ≠ Int64.minValue := by decide
  obtain ⟨⟨d, hd, hpos, hda, hdb, hgreatest, -⟩, l, hl, hvalue, -⟩ :=
    call_gcd_lcm ha hb .radians
  have h6 : (6 : Int) ∣ d.toInt := hgreatest 6 (by decide) (by decide)
  have hd6 : d.toInt ∣ 6 := (Int.dvd_add (a := d.toInt) hda hdb : d.toInt ∣ (-12 + 18))
  obtain rfl : d = 6 := Int64.toInt_inj.1 (Int.dvd_antisymm hpos (by decide) hd6 h6)
  obtain rfl : l = 36 := Int64.toInt_inj.1 (hvalue (by decide))
  exact ⟨⟨ha, hb⟩, hd, hl⟩

end NumericScript.Builtin
