import NumericScript.Double

/-! # The parts of a double

A finite double is `± mantissa · 2 ^ exponent`.  `FloatParts` makes the sign, the mantissa and
the exponent available as numbers, so that decimal text and remainders are computed exactly. -/

namespace NumericScript.Double

/-- What a double is made of. -/
inductive FloatParts where
  /-- Not a number. -/
  | nan
  /-- An infinity. -/
  | infinite (negative : Bool)
  /-- The number `± mantissa · 2 ^ exponent`. -/
  | finite (negative : Bool) (mantissa : Nat) (exponent : Int)
deriving DecidableEq, Repr

/-- The leading bit of a mantissa, which is not written. -/
def hiddenBit : Nat := Nat.pow 2 52

/-- The parts written in the bit pattern `bits`. -/
def partsOfBits (bits : Nat) : FloatParts :=
  let negative : Bool := bits / Nat.pow 2 63 % 2 = 1
  let biased : Nat := bits / hiddenBit % 2048
  let fraction : Nat := bits % hiddenBit
  if biased = 2047 then
    if fraction = 0 then .infinite negative else .nan
  else if biased = 0 then .finite negative fraction (-1074)
  else .finite negative (fraction + hiddenBit) ((biased : Int) - 1075)

/-- The parts of a double. -/
def parts : Double → FloatParts
  | number x _ => partsOfBits x.toBits.toNat
  | nan _ => .nan

/-- The mantissa of a finite double has at most 53 binary digits. -/
theorem mantissa_lt_of_partsOfBits {bits mantissa : Nat} {negative : Bool} {exponent : Int}
    (h : partsOfBits bits = .finite negative mantissa exponent) : mantissa < 2 * hiddenBit := by
  have hf : bits % hiddenBit < hiddenBit := Nat.mod_lt _ (by decide)
  grind [partsOfBits]

/-- `± mantissa · 2 ^ exponent` as a double. -/
def ofParts (negative : Bool) (mantissa : Nat) (exponent : Int) : Double :=
  let size := ofFloat (Float.scaleB (Float.ofNat mantissa) exponent) true
  if negative then -size else size

end NumericScript.Double
