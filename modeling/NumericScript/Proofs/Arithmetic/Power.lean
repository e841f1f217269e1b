import Mathlib.Algebra.Ring.Int.Parity
import Mathlib.Data.Int.ModEq
import Mathlib.Data.Nat.Prime.Basic
import NumericScript.Value.Arithmetic

/-! # Powers of whole numbers

Sums, differences and products of whole numbers wrap around: they are right modulo `2 ^ 64`.  So is
the power that is computed, but its exponent is cut off.  For an even base that makes no difference,
because both powers are zero; an odd base can be cancelled, and the factors that were cut off have
to make up one.

* `Arithmetic.toInt_pow_modEq`: repeated multiplication that wraps around.
* `Arithmetic.pow_modEq_pow_add_iff`: when factors at the end of a long product do not matter.
* `BinaryOp.apply_pow_modEq_iff`: when the operator gives the power.
* `BinaryOp.not_apply_pow_modEq`: that it does not always. -/

namespace NumericScript

namespace Arithmetic

/-- A power that wraps around is right modulo `2 ^ 64`. -/
theorem toInt_pow_modEq (a : Int64) (n : Nat) : (a ^ n).toInt ≡ a.toInt ^ n [ZMOD 2 ^ 64] := by
  induction n with
  | zero => rw [Int64.pow_zero, Int.pow_zero]; rfl
  | succ n ih =>
    rw [Int64.pow_succ, Int64.toInt_mul, Int.pow_succ a.toInt n]
    have hwrap : ((a ^ n).toInt * a.toInt).bmod (2 ^ 64) ≡ (a ^ n).toInt * a.toInt [ZMOD 2 ^ 64] :=
      Int.bmod_emod
    exact hwrap.trans (ih.mul_right a.toInt)

/-- A long product of equal factors goes on without change modulo `2 ^ 64` if the factors are even,
and otherwise just if the factors added make up one. -/
theorem pow_modEq_pow_add_iff {a : Int} {m k : Nat} (hm : 64 ≤ m) :
    a ^ m ≡ a ^ (m + k) [ZMOD 2 ^ 64] ↔ 2 ∣ a ∨ a ^ k ≡ 1 [ZMOD 2 ^ 64] := by
  by_cases heven : 2 ∣ a
  · have hzero {n : Nat} (hn : 64 ≤ n) : a ^ n ≡ 0 [ZMOD 2 ^ 64] :=
      Int.modEq_zero_iff_dvd.2 ((pow_dvd_pow_of_dvd heven 64).trans (pow_dvd_pow a hn))
    exact ⟨fun _ => .inl heven, fun _ => (hzero hm).trans (hzero (Nat.le_add_right_of_le hm)).symm⟩
  · have hcoprime : Int.gcd (2 ^ 64) (a ^ m) = 1 := by
      rw [Int.gcd, Int.natAbs_pow, Int.natAbs_pow]
      refine Nat.Coprime.pow 64 m (Nat.coprime_two_left.2 ?_)
      rwa [Int.natAbs_odd, ← Int.not_even_iff_odd, even_iff_two_dvd]
    rw [Int.pow_add a m k]
    constructor
    · intro h
      have hone : a ^ m * 1 ≡ a ^ m * a ^ k [ZMOD 2 ^ 64] := by rwa [Int.mul_one]
      have hcancel := hone.cancel_left_div_gcd (by decide)
      rw [hcoprime] at hcancel
      exact .inr hcancel.symm
    · rintro (h | h)
      · exact absurd h heven
      · have hone := h.symm.mul_left (a ^ m)
        rwa [Int.mul_one] at hone

end Arithmetic

namespace BinaryOp

open Arithmetic

/-- A power with an exponent that is not negative is computed with the exponent cut off. -/
theorem apply_pow {a b : Int64} (hb : 0 ≤ b.toInt) :
    pow.apply (.int a) (.int b) = .ok (.int (a ^ min b.toInt.toNat exponentBound)) := by
  change ints .pow a b = _
  rw [ints, if_neg (Int.not_lt.2 hb), pow_eq]

/-- The power of two whole numbers, of which the exponent is not negative, is a whole number.
Modulo `2 ^ 64` it is the power with the exponent cut off; and it is the power itself if the
exponent is below `2 ^ 32`, if the base is even, or if the factors that were cut off make up one,
and not otherwise. -/
theorem apply_pow_modEq_iff (a : Int64) {b : Int64} (hb : 0 ≤ b.toInt) :
    ∃ r : Int64, pow.apply (.int a) (.int b) = .ok (.int r) ∧
      r.toInt ≡ a.toInt ^ min b.toInt.toNat exponentBound [ZMOD 2 ^ 64] ∧
      (r.toInt ≡ a.toInt ^ b.toInt.toNat [ZMOD 2 ^ 64] ↔
        b.toInt < 2 ^ 32 ∨ 2 ∣ a.toInt ∨
          a.toInt ^ (b.toInt.toNat - exponentBound) ≡ 1 [ZMOD 2 ^ 64]) := by
  have hcut := toInt_pow_modEq a (min b.toInt.toNat exponentBound)
  have hbound : exponentBound = 4294967295 := rfl
  refine ⟨_, apply_pow hb, hcut, ?_⟩
  by_cases hsmall : b.toInt < 2 ^ 32
  · rw [Nat.min_eq_left (by omega)] at hcut ⊢
    exact ⟨fun _ => .inl hsmall, fun _ => hcut⟩
  · obtain ⟨k, hk⟩ : ∃ k, b.toInt.toNat = exponentBound + k :=
      ⟨b.toInt.toNat - exponentBound, by omega⟩
    rw [Nat.min_eq_right (by omega)] at hcut ⊢
    rw [hk, Nat.add_sub_cancel_left, ← pow_modEq_pow_add_iff (by decide : 64 ≤ exponentBound)]
    constructor
    · exact fun h => .inr (hcut.symm.trans h)
    · rintro (h | h)
      · exact absurd h hsmall
      · exact hcut.trans h

/-- A power that wraps around many times. -/
theorem apply_pow_modEq_iff_wrapped : 0 ≤ (1000 : Int64).toInt ∧
    ∃ r : Int64, pow.apply (.int (-7)) (.int 1000) = .ok (.int r) ∧
      r.toInt ≡ (-7) ^ 1000 [ZMOD 2 ^ 64] := by
  have hb : 0 ≤ (1000 : Int64).toInt := by decide
  obtain ⟨r, hr, -, hexact⟩ := apply_pow_modEq_iff (-7) hb
  exact ⟨hb, r, hr, hexact.2 (.inl (by decide))⟩

/-- Minus one to the power of `2 ^ 32` comes out as minus one. -/
theorem not_apply_pow_modEq : ¬ ∀ a b : Int64, 0 ≤ b.toInt →
    ∃ r : Int64, pow.apply (.int a) (.int b) = .ok (.int r) ∧
      r.toInt ≡ a.toInt ^ b.toInt.toNat [ZMOD 2 ^ 64] := by
  intro h
  have hb : 0 ≤ (4294967296 : Int64).toInt := by decide
  obtain ⟨r, hr, hpower⟩ := h (-1) 4294967296 hb
  have hvalue := Value.int.inj (Except.ok.inj ((apply_pow hb).symm.trans hr))
  have hcut := toInt_pow_modEq (-1) (min (4294967296 : Int64).toInt.toNat exponentBound)
  rw [hvalue] at hcut
  have hodd : Odd (min (4294967296 : Int64).toInt.toNat exponentBound) := by decide
  have heven : Even (4294967296 : Int64).toInt.toNat := by decide
  rw [show (-1 : Int64).toInt = -1 from rfl] at hcut hpower
  rw [hodd.neg_one_pow] at hcut
  rw [heven.neg_one_pow] at hpower
  exact absurd (hcut.symm.trans hpower) (by decide)

end BinaryOp

end NumericScript
