import EventFlow.Number.Basic
import EventFlow.Text.Digit

/-!
Numerals: numbers from their written digits.
-/

namespace EventFlow.Number

/-- The double written with the given digits before and after the point, times a power of ten. -/
def ofParts (negative : Bool) (whole fraction : List Char) (exponent : Int) : Double :=
  Double.ofDecimal negative (Text.ofDecimals (whole ++ fraction)) (exponent - fraction.length)

/-- An exponent at the front of a text: its value, and how many characters it takes. There must be
digits, and a sign may stand before them. -/
def exponent? (digit : Char → Bool) : List Char → Option (Int × Nat)
  | [] => none
  | mark :: rest =>
    if mark = 'e' || mark = 'E' then
      let sign := match rest with
        | '-' :: _ => 1
        | '+' :: _ => 1
        | _ => 0
      let digits := (rest.drop sign).takeWhile digit
      let power : Int := Text.ofDecimals digits
      if digits.isEmpty then none
      else some (if rest.head? = some '-' then -power else power, 1 + sign + digits.length)
    else none

/-- The message about an integer that would have to be written with more digits than allowed. -/
def longNumberText : String :=
  s!"Exceeds the limit ({maxDigits} digits) for integer string conversion; " ++
    "use sys.set_int_max_str_digits() to increase the limit"

/-- The message about an integer that is written with more digits than allowed. -/
def longIntegerText (digits : Nat) : String :=
  s!"Exceeds the limit ({maxDigits} digits) for integer string conversion: value has {digits} " ++
    "digits; use sys.set_int_max_str_digits() to increase the limit"

end EventFlow.Number
