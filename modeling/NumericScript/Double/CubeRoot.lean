import NumericScript.Double.Parts

/-! # Cube roots of doubles

The double nearest to the cube root.  `floorRoot` takes the cube root of a natural number bit
by bit; `cubeRoot` scales the mantissa up until the root has more bits than a double, and one
bit more tells whether the root is exact.

* `cube_floorRoot_le`, `lt_cube_succ_floorRoot`: the root is the greatest one not too large. -/

namespace NumericScript.Double

/-- The cube of a number. -/
def cube (n : Nat) : Nat := n * n * n

theorem cube_two_mul (n : Nat) : cube (2 * n) = 8 * cube n := by
  unfold cube
  grind

/-- The greatest number whose cube is at most `n`, for a root of at most `bits` bits. -/
def floorRoot : Nat → Nat → Nat
  | 0, _ => 0
  | bits + 1, n =>
    let r := 2 * floorRoot bits (n / 8)
    if cube (r + 1) ≤ n then r + 1 else r

theorem cube_floorRoot_le (bits n : Nat) : cube (floorRoot bits n) ≤ n := by
  induction bits generalizing n with
  | zero => exact Nat.zero_le n
  | succ bits ih =>
    simp only [floorRoot]
    split
    · assumption
    · have h := ih (n / 8)
      rw [cube_two_mul]
      omega

theorem lt_cube_succ_floorRoot {bits n : Nat} (hn : n < Nat.pow 8 bits) :
    n < cube (floorRoot bits n + 1) := by
  induction bits generalizing n with
  | zero =>
    have : n < 1 := hn
    simp only [floorRoot, cube]
    omega
  | succ bits ih =>
    have hn' : n < Nat.pow 8 bits * 8 := hn
    have h : n / 8 < cube (floorRoot bits (n / 8) + 1) := ih (by omega)
    have h8 : n < cube (2 * floorRoot bits (n / 8) + 2) := by
      rw [show 2 * floorRoot bits (n / 8) + 2 = 2 * (floorRoot bits (n / 8) + 1) by omega,
        cube_two_mul]
      omega
    simp only [floorRoot]
    split
    · exact h8
    · omega

/-- The double nearest to the cube root of `x`. -/
def cubeRoot (x : Double) : Double :=
  match parts x with
  | .finite negative m e =>
    if m = 0 then x
    else
      let shift : Nat := 180 + (e % 3).toNat
      let n := m * Nat.pow 2 shift
      let r := floorRoot 80 n
      let odd := if cube r = n then 0 else 1
      ofParts negative (2 * r + odd) ((e - shift) / 3 - 1)
  | _ => x

end NumericScript.Double
