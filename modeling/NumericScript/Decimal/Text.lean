import NumericScript.Decimal.Shortest

/-! # Decimal text of doubles

Two texts of a double, both without an exponent.

* `plainText` is the shortest decimal that reads back, and has no point when the number is
  whole.
* `valueText` shows a whole number exactly and with one decimal place, and any other number
  as `plainText` does. -/

namespace NumericScript.Decimal

open Double

/-- `text` with zeros in front up to `width` characters. -/
def padZeros (width : Nat) (text : String) : String :=
  "".pushn '0' (width - text.length) ++ text

/-- `digits · 10 ^ power` without an exponent. -/
def positional (digits : Nat) (power : Int) : String :=
  let places := (-power).toNat
  let unit := Nat.pow 10 places
  let whole := digits * Nat.pow 10 power.toNat
  if places = 0 then toString whole
  else toString (whole / unit) ++ "." ++ padZeros places (toString (whole % unit))

/-- The sign in front of a number. -/
def signText (negative : Bool) : String := if negative then "-" else ""

/-- The shortest decimal that reads back as `x`. -/
def plainText (x : Double) : String :=
  match parts x with
  | .nan => "NaN"
  | .infinite negative => signText negative ++ "inf"
  | .finite negative mantissa exponent =>
    if mantissa = 0 then signText negative ++ "0"
    else
      let (digits, power) := shortest mantissa exponent
      signText negative ++ positional digits power

/-- The number `mantissa · 2 ^ exponent`, if it is whole. -/
def whole? (mantissa : Nat) (exponent : Int) : Option Nat :=
  let unit := Nat.pow 2 (-exponent).toNat
  if mantissa % unit = 0 then some (mantissa * Nat.pow 2 exponent.toNat / unit) else none

/-- `x` as the language shows it: a whole number exactly and with one decimal place. -/
def valueText (x : Double) : String :=
  match parts x with
  | .finite negative mantissa exponent =>
    match whole? mantissa exponent with
    | some n => signText negative ++ toString n ++ ".0"
    | none => plainText x
  | _ => plainText x

end NumericScript.Decimal
