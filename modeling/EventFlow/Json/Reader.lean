import EventFlow.Json.Value
import EventFlow.Number.Numeral
import EventFlow.Text.Units

/-!
Reading document texts.

A reader takes a value off the front of a text and returns the rest. Containers may nest `depth`
levels deep; the text's own length is always enough. A fault knows what was left of the text where
it arose, and `ReadError.message` turns that into a line and a column.
-/

namespace EventFlow.Json

inductive Fault where
  | expectedValue
  | extraData
  | expectedName
  | expectedColon
  | expectedComma
  | unterminatedString
  | controlCharacter
  | badEscape
  | badUnicodeEscape
  | byteOrderMark
  deriving DecidableEq, Repr

inductive ReadError where
  | malformed (fault : Fault) (whole rest : List Char)
  | longInteger (digits : Nat)
  | tooDeep
  deriving DecidableEq, Repr

def Fault.text : Fault → String
  | .expectedValue => "Expecting value"
  | .extraData => "Extra data"
  | .expectedName => "Expecting property name enclosed in double quotes"
  | .expectedColon => "Expecting ':' delimiter"
  | .expectedComma => "Expecting ',' delimiter"
  | .unterminatedString => "Unterminated string starting at"
  | .controlCharacter => "Invalid control character at"
  | .badEscape => "Invalid \\escape"
  | .badUnicodeEscape => "Invalid \\uXXXX escape"
  | .byteOrderMark => "Unexpected UTF-8 BOM (decode using utf-8-sig)"

/-- The place after some text: its line and column, both from one. -/
def placeAfter (before : List Char) : Nat × Nat :=
  before.foldl (fun (line, column) c => if c = '\n' then (line + 1, 1) else (line, column + 1))
    (1, 1)

def ReadError.message : ReadError → String
  | .malformed fault whole rest =>
    let offset := whole.length - rest.length
    let (line, column) := placeAfter (whole.take offset)
    s!"{fault.text}: line {line} column {column} (char {offset})"
  | .longInteger digits => Number.longIntegerText digits
  | .tooDeep => "Nesting too deep"

/-! ## Texts and numbers -/

/-- A reader's complaint: a fault and the text left where it arose, or a limit. -/
inductive Stop where
  | fault (fault : Fault) (rest : List Char)
  | longInteger (digits : Nat)
  | tooDeep

abbrev Reader (α : Type) := List Char → Except Stop (α × List Char)

def isSpace (c : Char) : Bool := c = ' ' || c = '\t' || c = '\n' || c = '\r'

def skipSpace (cs : List Char) : List Char := cs.dropWhile isSpace

/-- What a one-letter escape stands for. -/
def simpleEscape? : Char → Option Char
  | '"' => some '"'
  | '\\' => some '\\'
  | '/' => some '/'
  | 'b' => some '\x08'
  | 'f' => some '\x0c'
  | 'n' => some '\n'
  | 'r' => some '\r'
  | 't' => some '\t'
  | _ => none

/-- The code units of a text up to its closing quote; `start` is the text from the opening quote
on. An escape by code unit has four digits and something after them. -/
def textUnits (start : List Char) : List Char → Except Stop (List Nat × List Char)
  | [] => .error (.fault .unterminatedString start)
  | '"' :: rest => .ok ([], rest)
  | ['\\'] => .error (.fault .unterminatedString start)
  | '\\' :: 'u' :: a :: b :: c :: d :: next :: rest =>
    if [a, b, c, d].all Text.isHex then do
      let (units, rest) ← textUnits start (next :: rest)
      return (Text.ofHexs [a, b, c, d] :: units, rest)
    else .error (.fault .badUnicodeEscape ('u' :: a :: b :: c :: d :: next :: rest))
  | '\\' :: 'u' :: rest => .error (.fault .badUnicodeEscape ('u' :: rest))
  | '\\' :: e :: rest =>
    match simpleEscape? e with
    | some c => do
      let (units, rest) ← textUnits start rest
      return (c.toNat :: units, rest)
    | none => .error (.fault .badEscape ('\\' :: e :: rest))
  | c :: rest =>
    if c.toNat < 0x20 then .error (.fault .controlCharacter (c :: rest))
    else do
      let (units, rest) ← textUnits start rest
      return (c.toNat :: units, rest)

/-- A text in double quotes, from the opening quote on. -/
def quoted (fault : Fault) : Reader String
  | '"' :: rest => do
    let (units, rest) ← textUnits ('"' :: rest) rest
    return (String.ofList (Text.ofUnits units), rest)
  | cs => .error (.fault fault cs)

def isAsciiDigit (c : Char) : Bool := c.isDigit

/-- The integer digits of a number: a zero alone, or digits that do not start with one. -/
def integerDigits : List Char → List Char
  | '0' :: _ => ['0']
  | cs => cs.takeWhile isAsciiDigit

/-- A point and the digits after it. -/
def fractionDigits : List Char → List Char
  | '.' :: rest => rest.takeWhile isAsciiDigit
  | _ => []

/-- A number without its sign. -/
def unsigned (negative : Bool) (start : List Char) : Reader Json := fun cs =>
  let whole := integerDigits cs
  if whole.isEmpty then .error (.fault .expectedValue start)
  else
    let rest := cs.drop whole.length
    let fraction := fractionDigits rest
    let rest := if fraction.isEmpty then rest else rest.drop (fraction.length + 1)
    match Number.exponent? isAsciiDigit rest with
    | some (e, taken) =>
      .ok (.number (.double (Number.ofParts negative whole fraction e)), rest.drop taken)
    | none =>
      if !fraction.isEmpty then
        .ok (.number (.double (Number.ofParts negative whole fraction 0)), rest)
      else if Number.maxDigits < whole.length then .error (.longInteger whole.length)
      else
        let n : Int := Text.ofDecimals whole
        .ok (.number (.int (if negative then -n else n)), rest)

/-- Values that are not containers. -/
def scalar : Reader Json
  | 'n' :: 'u' :: 'l' :: 'l' :: rest => .ok (.null, rest)
  | 't' :: 'r' :: 'u' :: 'e' :: rest => .ok (.bool true, rest)
  | 'f' :: 'a' :: 'l' :: 's' :: 'e' :: rest => .ok (.bool false, rest)
  | 'N' :: 'a' :: 'N' :: rest => .ok (.number (.double .nan), rest)
  | 'I' :: 'n' :: 'f' :: 'i' :: 'n' :: 'i' :: 't' :: 'y' :: rest =>
    .ok (.number (.double (.infinite false)), rest)
  | '-' :: 'I' :: 'n' :: 'f' :: 'i' :: 'n' :: 'i' :: 't' :: 'y' :: rest =>
    .ok (.number (.double (.infinite true)), rest)
  | '-' :: rest => unsigned true ('-' :: rest) rest
  | cs => unsigned false cs cs

/-! ## Containers -/

/-- The items of an array after its first bracket; `fuel` bounds their number. -/
def items (item : Reader Json) : (fuel : Nat) → Reader (List Json)
  | 0, cs => .error (.fault .expectedValue cs)
  | fuel + 1, cs => do
    let (value, rest) ← item cs
    match skipSpace rest with
    | ']' :: rest => return ([value], rest)
    | ',' :: rest => do
      let (values, rest) ← items item fuel (skipSpace rest)
      return (value :: values, rest)
    | rest => .error (.fault .expectedComma rest)

/-- The members of an object after its first bracket; `fuel` bounds their number. -/
def members (item : Reader Json) : (fuel : Nat) → Reader Members
  | 0, cs => .error (.fault .expectedName cs)
  | fuel + 1, cs => do
    let (name, rest) ← quoted .expectedName cs
    match skipSpace rest with
    | ':' :: rest => do
      let (value, rest) ← item (skipSpace rest)
      match skipSpace rest with
      | '}' :: rest => return ([(name, value)], rest)
      | ',' :: rest => do
        let (values, rest) ← members item fuel (skipSpace rest)
        return ((name, value) :: values, rest)
      | rest => .error (.fault .expectedComma rest)
    | rest => .error (.fault .expectedColon rest)

def arrayOf (item : Reader Json) : Reader Json := fun cs =>
  match skipSpace cs with
  | ']' :: rest => .ok (.array [], rest)
  | cs => do
    let (values, rest) ← items item cs.length.succ cs
    return (.array values, rest)

def objectOf (item : Reader Json) : Reader Json := fun cs =>
  match skipSpace cs with
  | '}' :: rest => .ok (.object [], rest)
  | cs => do
    let (pairs, rest) ← members item cs.length.succ cs
    return (.object (ofPairs pairs), rest)

/-- A value whose containers nest at most `depth` levels deep. -/
def value : (depth : Nat) → Reader Json
  | 0, cs => match cs with
    | '[' :: _ | '{' :: _ => .error .tooDeep
    | '"' :: _ => do
      let (s, rest) ← quoted .expectedValue cs
      return (.text s, rest)
    | _ => scalar cs
  | depth + 1, cs => match cs with
    | '[' :: rest => arrayOf (value depth) rest
    | '{' :: rest => objectOf (value depth) rest
    | '"' :: _ => do
      let (s, rest) ← quoted .expectedValue cs
      return (.text s, rest)
    | _ => scalar cs

def Stop.toError (whole : List Char) : Stop → ReadError
  | .fault f rest => .malformed f whole rest
  | .longInteger digits => .longInteger digits
  | .tooDeep => .tooDeep

/-- The value that a whole text denotes, nested at most `depth` levels deep. -/
def readWithin (depth : Nat) (text : List Char) : Except ReadError Json :=
  if text.head? = some '\ufeff' then .error (.malformed .byteOrderMark text text)
  else
    match value depth (skipSpace text) with
    | .error stop => .error (stop.toError text)
    | .ok (v, rest) =>
      match skipSpace rest with
      | [] => .ok v
      | rest => .error (.malformed .extraData text rest)

/-- The value that a whole text denotes. -/
def read (text : String) : Except ReadError Json :=
  readWithin text.length text.toList

end EventFlow.Json
