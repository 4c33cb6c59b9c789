/-!
Binary floating-point numbers of 64 bits, as exact values.

A finite number is `mantissa · 2 ^ exponent` with a sign, so that minus zero is a number of its
own. `Double.ofRatio` rounds a quotient of natural numbers to the nearest such number, a tie to
the even mantissa:

    ofRatio negative num den = ± m · 2 ^ e     |num / den - m · 2 ^ e| ≤ 2 ^ (e - 1)
-/

namespace EventFlow

inductive Double where
  | nan
  | infinite (negative : Bool)
  | finite (negative : Bool) (mantissa : Nat) (exponent : Int)
  deriving DecidableEq, Repr, Inhabited

namespace Double

/-- The exponent of the smallest positive number. -/
def minExponent : Int := -1074

/-- The exponent of the largest finite numbers. -/
def maxExponent : Int := 971

def zero (negative : Bool) : Double := .finite negative 0 minExponent

/-- The quotient rounded to the nearest natural number, a half to the even neighbour. -/
def roundDiv (num den : Nat) : Nat :=
  let q := num / den
  let r := num % den
  if 2 * r < den then q
  else if den < 2 * r then q + 1
  else if q % 2 = 0 then q else q + 1

/-- `n · 2 ^ e` as a quotient of natural numbers. -/
def scale (num den : Nat) (e : Int) : Nat × Nat :=
  if 0 ≤ e then (num * Nat.pow 2 e.toNat, den) else (num, den * Nat.pow 2 (-e).toNat)

/-- The exponent at which the quotient has a mantissa of 53 bits, or the least exponent. -/
def exponentFor (num den : Nat) : Int :=
  let e : Int := (num.log2 : Int) - den.log2 - 53
  let (n, d) := scale num den (-e)
  max minExponent (if n / d < Nat.pow 2 53 then e else e + 1)

/-- The number nearest to `num / den`, with the given sign. -/
def ofRatio (negative : Bool) (num den : Nat) : Double :=
  if num = 0 then zero negative
  else
    let e := exponentFor num den
    let (n, d) := scale num den (-e)
    let m := roundDiv n d
    let (m, e) := if m = Nat.pow 2 53 then (Nat.pow 2 52, e + 1) else (m, e)
    if maxExponent < e then .infinite negative else .finite negative m e

/-- How many decimal digits a natural number has. -/
def digitCount (n : Nat) : Nat := (Nat.toDigits 10 n).length

/-- The number nearest to `digits · 10 ^ exponent`. Exponents far outside the range are settled
without computing the power. -/
def ofDecimal (negative : Bool) (digits : Nat) (exponent : Int) : Double :=
  if digits = 0 then zero negative
  else
    let magnitude := exponent + digitCount digits
    if 310 < magnitude then .infinite negative
    else if magnitude < -330 then zero negative
    else if 0 ≤ exponent then ofRatio negative (digits * Nat.pow 10 exponent.toNat) 1
    else ofRatio negative digits (Nat.pow 10 (-exponent).toNat)

def neg : Double → Double
  | .nan => .nan
  | .infinite negative => .infinite !negative
  | .finite negative m e => .finite (!negative) m e

def isFinite : Double → Bool
  | .finite .. => true
  | _ => false

/-! ## Comparison by value -/

/-- The signed value as a quotient. -/
def fraction (negative : Bool) (m : Nat) (e : Int) : Int × Nat :=
  let (n, d) := scale m 1 e
  (if negative then -(n : Int) else n, d)

/-- Equality by value: the two zeros are equal, and so are two that are not numbers. -/
def same : Double → Double → Bool
  | .nan, .nan => true
  | .infinite s, .infinite t => s == t
  | .finite s m e, .finite t n f =>
    let (a, b) := fraction s m e
    let (c, d) := fraction t n f
    a * d == c * b
  | _, _ => false

/-- Numeric equality with an integer. -/
def sameInt : Double → Int → Bool
  | .finite s m e, i =>
    let (a, b) := fraction s m e
    a == i * b
  | _, _ => false

end Double

end EventFlow
