/-! # Doubles

The numbers with a fraction: binary floating-point numbers of 64 bits, the infinities, and NaN,
which has a sign of its own.  The sign of NaN is not shown, but it tells where NaN stands among
sorted numbers.

An operation on NaN gives the first NaN that it meets.  An operation on numbers that has no
value gives the negative NaN.

* `toFloat_ofFloat`: what is not NaN is kept as it is. -/

namespace NumericScript

/-- Doubles. -/
inductive Double where
  /-- A number or an infinity. -/
  | number (x : Float) (isNumber : x.isNaN = false)
  | nan (negative : Bool)
deriving DecidableEq, Repr

namespace Double

/-- The double that `x` is; if it is NaN, `negative` is its sign. -/
def ofFloat (x : Float) (negative : Bool) : Double :=
  if h : x.isNaN = false then number x h else nan negative

/-- A double without the sign of NaN. -/
def toFloat : Double → Float
  | number x _ => x
  | nan _ => 0.0 / 0.0

theorem toFloat_ofFloat {x : Float} (h : x.isNaN = false) (negative : Bool) :
    (ofFloat x negative).toFloat = x := by
  unfold ofFloat
  rw [dif_pos h]
  rfl

/-- Whether a double is NaN. -/
def isNaN : Double → Bool
  | number _ _ => false
  | nan _ => true

/-- A function of numbers on a double. -/
def map (f : Float → Float) : Double → Double
  | number x _ => ofFloat (f x) true
  | nan negative => nan negative

/-- A function of two numbers on doubles. -/
def zipWith (f : Float → Float → Float) : Double → Double → Double
  | nan negative, _ => nan negative
  | number _ _, nan negative => nan negative
  | number x _, number y _ => ofFloat (f x y) true

/-- An infinity. -/
def infinite (negative : Bool) : Double :=
  ofFloat (Float.ofBits (if negative then 0xfff0000000000000 else 0x7ff0000000000000)) true

/-- A natural number as a double. -/
def ofNat (n : Nat) : Double := ofFloat (Float.ofNat n) true

/-- A whole number as a double. -/
def ofInt64 (n : Int64) : Double := ofFloat (Float.ofInt n.toInt) true

instance : OfScientific Double :=
  ⟨fun digits small exponent => ofFloat (Float.ofScientific digits small exponent) true⟩

instance : Inhabited Double := ⟨0.0⟩

/-! ### Arithmetic -/

/-- The opposite, of NaN as well. -/
def neg : Double → Double
  | number x _ => ofFloat (-x) true
  | nan negative => nan !negative

/-- The absolute value, of NaN as well. -/
def abs : Double → Double
  | number x _ => ofFloat x.abs true
  | nan _ => nan false

instance : Neg Double := ⟨neg⟩
instance : Add Double := ⟨zipWith (· + ·)⟩
instance : Sub Double := ⟨zipWith (· - ·)⟩
instance : Mul Double := ⟨zipWith (· * ·)⟩
instance : Div Double := ⟨zipWith (· / ·)⟩

/-- The sign of the first NaN of two doubles. -/
def nanSign : Double → Double → Bool
  | nan negative, _ => negative
  | number _ _, nan negative => negative
  | number _ _, number _ _ => true

/-- The power.  One to the power of NaN and NaN to the power of zero are numbers. -/
def pow (x y : Double) : Double := ofFloat (Float.pow x.toFloat y.toFloat) (nanSign x y)

/-! ### Order -/

/-- Doubles are compared by their values: the two zeros are equal, and NaN is not equal to
itself. -/
instance : BEq Double := ⟨fun x y => x.toFloat == y.toFloat⟩

instance : LT Double := ⟨fun x y => x.toFloat < y.toFloat⟩
instance : LE Double := ⟨fun x y => x.toFloat ≤ y.toFloat⟩

instance (x y : Double) : Decidable (x < y) := inferInstanceAs (Decidable (x.toFloat < y.toFloat))
instance (x y : Double) : Decidable (x ≤ y) := inferInstanceAs (Decidable (x.toFloat ≤ y.toFloat))

/-- The greater of two doubles.  NaN gives way, and of equal ones it is the second. -/
def maximum : Double → Double → Double
  | nan _, y => y
  | x, nan _ => x
  | number x hx, number y hy => if y < x then number x hx else number y hy

/-- The lesser of two doubles.  NaN gives way, and of equal ones it is the second. -/
def minimum : Double → Double → Double
  | nan _, y => y
  | x, nan _ => x
  | number x hx, number y hy => if x < y then number x hx else number y hy

/-- A key that orders all doubles: the negative NaN, the numbers with the negative zero before
the positive one, and the positive NaN. -/
def orderKey : Double → Int
  | number x _ =>
    let bits := x.toBits.toNat
    let half := Nat.pow 2 63
    if bits < half then bits else (half : Int) - 1 - bits
  | nan negative => if negative then -Nat.pow 2 63 else Nat.pow 2 63

end Double

end NumericScript
