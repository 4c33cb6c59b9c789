import EventFlow.Number.Double

/-!
The shortest decimal that reads back as a given double.

Among the decimals that round to the number, `Double.shortest` takes one with the fewest digits,
and of those the nearest. The candidates on a decimal grid are the two neighbours of the number
on it: if any point of the grid rounds to the number, one of these does.
-/

namespace EventFlow.Double

/-- The reals that round to a number, times a common denominator: the number itself, the two
ends, and whether the ends belong to them. -/
structure Span where
  value : Nat
  low : Nat
  high : Nat
  den : Nat
  closed : Bool

def span (m : Nat) (e : Int) : Span :=
  let below := if m = Nat.pow 2 52 && minExponent < e then 1 else 2
  let (unit, den) := scale 1 4 e
  { value := 4 * m * unit
    low := (4 * m - below) * unit
    high := (4 * m + 2) * unit
    den := den
    closed := m % 2 == 0 }

/-- Whether the decimal `d · 10 ^ s` rounds to the number. -/
def Span.holds (i : Span) (d : Nat) (s : Int) : Bool :=
  let (x, y) :=
    if 0 ≤ s then (d * Nat.pow 10 s.toNat * i.den, 1) else (d * i.den, Nat.pow 10 (-s).toNat)
  if i.closed then i.low * y ≤ x && x ≤ i.high * y else i.low * y < x && x < i.high * y

/-- The number divided by `10 ^ s`, as a quotient of natural numbers. -/
def Span.scaled (i : Span) (s : Int) : Nat × Nat :=
  if 0 ≤ s then (i.value, i.den * Nat.pow 10 s.toNat)
  else (i.value * Nat.pow 10 (-s).toNat, i.den)

/-- The decimal on the grid of `10 ^ s` that rounds to the number, the nearer of two. -/
def Span.onGrid? (i : Span) (s : Int) : Option Nat :=
  let (n, d) := i.scaled s
  let down := n / d
  let near := roundDiv n d
  if i.holds near s then some near
  else if i.holds down s then some down
  else if i.holds (down + 1) s then some (down + 1)
  else none

/-- The exponent of the leading decimal digit: `10 ^ p ≤ value < 10 ^ (p + 1)`. -/
def Span.leading (i : Span) : Int :=
  let guess : Int := (digitCount i.value : Int) - digitCount i.den
  let (n, d) := i.scaled guess
  if d ≤ n then guess else guess - 1

/-- The first grid with a hit, from `digits` digits on; `tries` more grids may be searched. -/
def Span.search (i : Span) (p : Int) : (tries digits : Nat) → Nat × Int
  | 0, digits => ((i.onGrid? (p + 1 - digits)).getD 0, p + 1 - digits)
  | tries + 1, digits =>
    match i.onGrid? (p + 1 - digits) with
    | some d => (d, p + 1 - digits)
    | none => i.search p tries (digits + 1)

/-- Trailing zeros go into the exponent. -/
def dropZeros : (fuel : Nat) → Nat × Int → Nat × Int
  | 0, r => r
  | fuel + 1, (d, s) => if d ≠ 0 && d % 10 = 0 then dropZeros fuel (d / 10, s + 1) else (d, s)

/-- The digits and the decimal exponent of the shortest decimal that reads back as
`m · 2 ^ e`; no digits stand for zero. -/
def shortest (m : Nat) (e : Int) : Nat × Int :=
  if m = 0 then (0, 0)
  else
    let i := span m e
    dropZeros 20 (i.search i.leading 16 1)

end EventFlow.Double
