import NumericScript.Double.Parts

/-! # Remainders of doubles -/

namespace NumericScript.Double

/-- The remainder of `x` by `y` when the quotient is cut off toward zero.  It has the sign of
`x` and is exact: both numbers are multiples of the lesser of their two powers of two. -/
def remainder (x y : Double) : Double :=
  match parts x, parts y with
  | .finite s m p, .finite _ n q =>
    if n = 0 then nan true
    else
      let e := min p q
      ofParts s (m * Nat.pow 2 (p - e).toNat % (n * Nat.pow 2 (q - e).toNat)) e
  | .finite .., .infinite _ => x
  | _, _ => nan (nanSign x y)

end NumericScript.Double
