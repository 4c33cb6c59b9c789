/-!
Code units: numbers that stand for characters, where two surrogates make one character.

    ofUnits (toUnits cs) = cs

Escapes in texts name code units, so a character beyond the first plane may be written as a pair.
A surrogate on its own is no character, and the replacement character is read in its place: texts
that differ in such surrogates alone are not told apart.
-/

namespace EventFlow.Text

def isHighSurrogate (n : Nat) : Bool := 0xd800 ≤ n && n < 0xdc00

def isLowSurrogate (n : Nat) : Bool := 0xdc00 ≤ n && n < 0xe000

/-- The character that stands in for a surrogate without its partner. -/
def replacement : Char := '\ufffd'

def ofUnit (n : Nat) : Char :=
  if isHighSurrogate n || isLowSurrogate n then replacement else Char.ofNat n

/-- The characters that code units stand for. -/
def ofUnits : List Nat → List Char
  | [] => []
  | [n] => [ofUnit n]
  | high :: low :: rest =>
    if isHighSurrogate high && isLowSurrogate low then
      Char.ofNat (0x10000 + (high - 0xd800) * 0x400 + (low - 0xdc00)) :: ofUnits rest
    else ofUnit high :: ofUnits (low :: rest)

/-- One unit for each character. -/
def toUnits (cs : List Char) : List Nat := cs.map Char.toNat

end EventFlow.Text
