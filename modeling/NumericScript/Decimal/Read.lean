import NumericScript.Double

/-! # Reading numbers

Whole numbers are an optional sign and decimal digits, and have to fit 64 bits.  Doubles are
an optional sign and either a name (`inf`, `infinity`, `nan`, in any case) or digits with an
optional point and an optional exponent; at least one digit has to stand before the exponent.
The double read is the one nearest to the decimal. -/

namespace NumericScript.Decimal

/-- The number that the decimal digits `cs` denote. -/
def natOfDigits (cs : List Char) : Nat :=
  cs.foldl (fun n c => 10 * n + (c.toNat - '0'.toNat)) 0

/-- The whole number `n` as a 64-bit one, if it fits. -/
def int64? (n : Int) : Option Int64 :=
  if Int64.minValue.toInt ≤ n ∧ n ≤ Int64.maxValue.toInt then some (Int64.ofInt n) else none

/-- A sign, if there is one, and what follows it. -/
def splitSign : List Char → Bool × List Char
  | '-' :: cs => (true, cs)
  | '+' :: cs => (false, cs)
  | cs => (false, cs)

/-- Reads a whole number of 64 bits. -/
def readInt? (text : String) : Option Int64 :=
  let (negative, cs) := splitSign text.toList
  if cs.isEmpty || !cs.all Char.isDigit then none
  else int64? (if negative then -(natOfDigits cs : Int) else natOfDigits cs)

/-- The double nearest to `digits · 10 ^ power`.  Decimals outside the range of doubles are
answered without computing the power of ten. -/
def nearest (digits : Nat) (power : Int) : Double :=
  let size := ((toString digits).length : Int) + power
  if digits = 0 || size < -400 then 0.0
  else if 400 < size then .infinite false
  else .ofFloat (Float.ofScientific digits (power < 0) power.natAbs) true

/-- Reads an exponent, `e` and a whole number, or nothing at all. -/
def readExponent? : List Char → Option Int
  | [] => some 0
  | c :: cs =>
    if c = 'e' || c = 'E' then
      let (negative, ds) := splitSign cs
      if ds.isEmpty || !ds.all Char.isDigit then none
      else some (if negative then -(natOfDigits ds : Int) else natOfDigits ds)
    else none

/-- Reads digits with an optional point and an optional exponent. -/
def readDecimal? (cs : List Char) : Option Double :=
  let whole := cs.takeWhile Char.isDigit
  let (places, rest) :=
    match cs.dropWhile Char.isDigit with
    | '.' :: rest => (rest.takeWhile Char.isDigit, rest.dropWhile Char.isDigit)
    | rest => ([], rest)
  if whole.isEmpty && places.isEmpty then none
  else (readExponent? rest).map fun e => nearest (natOfDigits (whole ++ places)) (e - places.length)

/-- The double that a name denotes. -/
def named? (cs : List Char) : Option Double :=
  let name := String.ofList (cs.map Char.toLower)
  if name = "inf" || name = "infinity" then some (.infinite false)
  else if name = "nan" then some (.nan false)
  else none

/-- Reads a double. -/
def readDouble? (text : String) : Option Double :=
  let (negative, cs) := splitSign text.toList
  (named? cs <|> readDecimal? cs).map fun x => if negative then -x else x

end NumericScript.Decimal
