import EventFlow.Number.Shortest

/-!
Numbers as the texts write them: integers of any size, and doubles.

The written form of a double is positional while its leading digit stands between the fifth
place after the point and the sixteenth before it, and has an exponent of at least two digits
outside that range.
-/

namespace EventFlow

inductive Number where
  | int (i : Int)
  | double (d : Double)
  deriving DecidableEq, Repr, Inhabited

/-- How a number that is not finite is spelled. -/
structure Spelling where
  nan : String
  infinite : String
  negativeInfinite : String

namespace Number

/-- The spelling in messages and in lists of tokens. -/
def plain : Spelling := ⟨"nan", "inf", "-inf"⟩

/-- The spelling in documents. -/
def document : Spelling := ⟨"NaN", "Infinity", "-Infinity"⟩

def decimalChars (n : Nat) : List Char := Nat.toDigits 10 n

/-- Digits with the point after the first `point` of them; zeros fill the gap on either side. -/
def positional (digits : List Char) (point : Int) : List Char :=
  if point ≤ 0 then ['0', '.'] ++ List.replicate (-point).toNat '0' ++ digits
  else
    let n := point.toNat
    if digits.length ≤ n then digits ++ List.replicate (n - digits.length) '0' ++ ['.', '0']
    else digits.take n ++ ['.'] ++ digits.drop n

/-- Digits with the point after the first of them, and an exponent. -/
def scientific (digits : List Char) (exponent : Int) : List Char :=
  let fraction := digits.drop 1
  let power := decimalChars exponent.natAbs
  let power := if power.length < 2 then '0' :: power else power
  digits.take 1 ++ (if fraction.isEmpty then [] else '.' :: fraction) ++
    ['e', if exponent < 0 then '-' else '+'] ++ power

/-- The written form of a finite number without its sign. -/
def finiteChars (m : Nat) (e : Int) : List Char :=
  let (d, s) := Double.shortest m e
  let digits := decimalChars d
  let point := s + digits.length
  if m = 0 then ['0', '.', '0']
  else if -4 < point && point ≤ 16 then positional digits point
  else scientific digits (point - 1)

def writeDouble (spelling : Spelling) : Double → String
  | .nan => spelling.nan
  | .infinite false => spelling.infinite
  | .infinite true => spelling.negativeInfinite
  | .finite negative m e =>
    String.ofList ((if negative then ['-'] else []) ++ finiteChars m e)

def writeInt (i : Int) : String :=
  String.ofList ((if i < 0 then ['-'] else []) ++ decimalChars i.natAbs)

def write (spelling : Spelling) : Number → String
  | .int i => writeInt i
  | .double d => writeDouble spelling d

def neg : Number → Number
  | .int i => .int (-i)
  | .double d => .double d.neg

/-- Numeric equality, by exact value. -/
def same : Number → Number → Bool
  | .int i, .int j => i == j
  | .int i, .double d => d.sameInt i
  | .double d, .int i => d.sameInt i
  | .double d, .double e => d.same e

/-- The exact value as a quotient; infinite numbers have zero below. -/
def quotient? : Number → Option (Int × Nat)
  | .int i => some (i, 1)
  | .double .nan => none
  | .double (.infinite negative) => some (if negative then -1 else 1, 0)
  | .double (.finite negative m e) => some (Double.fraction negative m e)

/-- Numeric order, by exact value. -/
def notAbove (m n : Number) : Bool :=
  match m.quotient?, n.quotient? with
  | some (a, b), some (c, d) => if b = 0 && d = 0 then a ≤ c else a * d ≤ c * b
  | _, _ => false

/-- The most digits that an integer may be written with. -/
def maxDigits : Nat := 4300

/-- The least natural number with more digits than may be written. -/
def digitLimit : Nat := Nat.pow 10 maxDigits

/-- Whether a number has more digits than may be written. -/
def isLong : Number → Bool
  | .int i => digitLimit ≤ i.natAbs
  | .double _ => false

end Number

end EventFlow
