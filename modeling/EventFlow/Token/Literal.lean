import EventFlow.Text.Units
import EventFlow.Token.Fault

/-!
Literals of flow source: texts in quotes, templates and numbers.

Every reader counts the characters it takes off the front of a text. A failure carries the count
at which it arose, so that its line can be told.

    readString '\'' (body ++ "'" ++ rest) = (value, length of body + 2)
-/

namespace EventFlow.Token

open Text

/-! ## Escapes -/

/-- What a one-letter escape stands for. -/
def simpleEscape? : Char → Option Nat
  | 'n' => some 0x0a
  | 't' => some 0x09
  | 'r' => some 0x0d
  | 'b' => some 0x08
  | 'f' => some 0x0c
  | 'v' => some 0x0b
  | '0' => some 0x00
  | _ => none

/-- One code unit by `width` hexadecimal digits. -/
def hexEscape (fault : Fault) (width : Nat) (cs : List Char) : Except Fault (List Nat × Nat) :=
  let digits := cs.take width
  if digits.length = width && digits.all isHex then .ok ([ofHexs digits], width)
  else .error fault

/-- One code point by one to six digits and a closing brace. -/
def bracedEscape (cs : List Char) : Except Fault (List Nat × Nat) :=
  let digits := cs.takeWhile (· ≠ '}')
  if digits.length < cs.length && 0 < digits.length && digits.length ≤ 6 &&
      digits.all isHex then
    if ofHexs digits < 0x110000 then .ok ([ofHexs digits], digits.length + 1)
    else .error .codePointTooLarge
  else .error .badBracedEscape

/-- The code units of an escape after its backslash, and how many characters it takes. A line
break after a backslash stands for nothing, and any other character for itself. -/
def escape : List Char → Except Fault (List Nat × Nat)
  | [] => .error .unterminatedEscape
  | 'x' :: rest => do
    let (units, taken) ← hexEscape .badHexEscape 2 rest
    return (units, taken + 1)
  | 'u' :: '{' :: rest => do
    let (units, taken) ← bracedEscape rest
    return (units, taken + 2)
  | 'u' :: rest => do
    let (units, taken) ← hexEscape .badUnicodeEscape 4 rest
    return (units, taken + 1)
  | '\n' :: _ => .ok ([], 1)
  | c :: _ => .ok ([(simpleEscape? c).getD c.toNat], 1)

/-! ## Texts -/

/-- The code units of a text up to its closing quote; `taken` characters stand before it. -/
def stringBody (quote : Char) (taken : Nat) : List Char → Except (Fault × Nat) (List Nat × Nat)
  | [] => .error (.unterminatedString, taken)
  | c :: rest =>
    if c = '\n' then .error (.unterminatedString, taken)
    else if c = quote then .ok ([], taken + 1)
    else if c = '\\' then
      match escape rest with
      | .error fault => .error (fault, taken + 1)
      | .ok (units, n) => do
        let (more, total) ← stringBody quote (taken + 1 + n) (rest.drop n)
        return (units ++ more, total)
    else do
      let (more, total) ← stringBody quote (taken + 1) rest
      return (c.toNat :: more, total)
termination_by cs => cs.length

/-- A text in quotes, from the opening quote on. -/
def readString (quote : Char) (cs : List Char) : Except (Fault × Nat) (String × Nat) := do
  let (units, taken) ← stringBody quote 1 (cs.drop 1)
  return (String.ofList (ofUnits units), taken)

/-! ## Templates -/

/-- How many characters a substitution takes up to the brace that closes it, braces inside quotes
not counted; `depth` braces are open. -/
def substitution (depth : Nat) (quote : Option Char) (taken : Nat) :
    List Char → Except (Fault × Nat) Nat
  | [] => .error (.unterminatedSubstitution, taken)
  | c :: rest =>
    match quote with
    | some q =>
      if c = '\\' then
        match rest with
        | [] => .error (.unterminatedSubstitution, taken + 2)
        | _ :: rest => substitution depth quote (taken + 2) rest
      else substitution depth (if c = q then none else quote) (taken + 1) rest
    | none =>
      if c = '\'' || c = '"' || c = '`' then substitution depth (some c) (taken + 1) rest
      else if c = '{' then substitution (depth + 1) none (taken + 1) rest
      else if c = '}' then
        if depth ≤ 1 then .ok (taken + 1) else substitution (depth - 1) none (taken + 1) rest
      else substitution depth none (taken + 1) rest

/-- The code units of a template up to its closing quote, and whether it has a substitution.
Substitutions stand in the value as they are written. -/
def templateBody (taken : Nat) : List Char → Except (Fault × Nat) (List Nat × Bool × Nat)
  | [] => .error (.unterminatedTemplate, taken)
  | c :: rest =>
    if c = '`' then .ok ([], false, taken + 1)
    else if c = '\\' then
      match escape rest with
      | .error fault => .error (fault, taken + 1)
      | .ok (units, n) => do
        let (more, marked, total) ← templateBody (taken + 1 + n) (rest.drop n)
        return (units ++ more, marked, total)
    else if c = '$' && rest.head? = some '{' then do
      let stop ← substitution 1 none (taken + 2) (rest.drop 1)
      let n := stop - taken - 1
      let (more, _, total) ← templateBody stop (rest.drop n)
      return (toUnits (c :: rest.take n) ++ more, true, total)
    else do
      let (more, marked, total) ← templateBody (taken + 1) rest
      return (c.toNat :: more, marked, total)
termination_by cs => cs.length

/-- A template, from the opening quote on: its value, whether it has a substitution, and how many
characters it takes. -/
def readTemplate (cs : List Char) : Except (Fault × Nat) (String × Bool × Nat) := do
  let (units, marked, taken) ← templateBody 1 (cs.drop 1)
  return (String.ofList (ofUnits units), marked, taken)

/-! ## Numbers -/

def isHexMark (c : Char) : Bool := c = 'x' || c = 'X'

/-- A number in base sixteen after its leading zero. -/
def hexNumber? : List Char → Option (Number × Nat)
  | '0' :: mark :: rest =>
    let digits := rest.takeWhile isHex
    if isHexMark mark && !digits.isEmpty then
      some (.int (ofHexs digits), digits.length + 2)
    else none
  | _ => none

/-- A number in base ten: an integer unless a point or an exponent stands in it. -/
def decimalNumber (cs : List Char) : Except Fault (Number × Nat) :=
  let whole := cs.takeWhile isDecimal
  let rest := cs.drop whole.length
  let pointed := rest.head? = some '.'
  let fraction := if pointed then (rest.drop 1).takeWhile isDecimal else []
  let point := if pointed then 1 + fraction.length else 0
  if whole.isEmpty && fraction.isEmpty then .error .strayDigit
  else
    match Number.exponent? isDecimal (rest.drop point) with
    | some (power, n) =>
      .ok (.double (Number.ofParts false whole fraction power), whole.length + point + n)
    | none =>
      if pointed then .ok (.double (Number.ofParts false whole fraction 0), whole.length + point)
      else if Number.maxDigits < whole.length then .error (.longInteger whole.length)
      else .ok (.int (ofDecimals whole), whole.length)

def readNumber (cs : List Char) : Except Fault (Number × Nat) :=
  match hexNumber? cs with
  | some result => .ok result
  | none => decimalNumber cs

end EventFlow.Token
