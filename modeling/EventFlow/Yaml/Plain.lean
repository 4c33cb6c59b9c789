import EventFlow.Json.Value
import EventFlow.Number.Numeral
import EventFlow.Text.Line

/-!
Plain scalars: what a text without quotes denotes.

A few words stand for null and for the booleans. Integers may be binary, octal, decimal or
hexadecimal, or have groups of sixty between colons, and underscores between their digits do not
count; a double needs a point. Dates are told apart, since a text of that form needs quotes.
Everything else is a text.
-/

namespace EventFlow.Yaml

inductive Plain where
  | null
  | bool (b : Bool)
  | number (n : Number)
  | date
  | mark
  | text
  deriving DecidableEq, Repr

def nullWords : List String := ["", "~", "null", "Null", "NULL"]

def trueWords : List String :=
  ["yes", "Yes", "YES", "true", "True", "TRUE", "on", "On", "ON"]

def falseWords : List String :=
  ["no", "No", "NO", "false", "False", "FALSE", "off", "Off", "OFF"]

/-- A key that merges another mapping, and the default value of a mapping. -/
def markWords : List String := ["<<", "="]

/-! ## Integers -/

/-- Digits, and the underscores between them. -/
def isFiller (c : Char) : Bool := c.isDigit || c = '_'

/-- The number that digits denote in a base; underscores do not count. -/
def ofDigits (base : Nat) (cs : List Char) : Nat :=
  (cs.filter (· ≠ '_')).foldl (fun n c => base * n + (Text.hexValue? c).getD 0) 0

def startsWithDigit (cs : List Char) : Bool := cs.head?.any Char.isDigit

/-- A group after a colon: a number below sixty. -/
def isGroup : List Char → Bool
  | [a] => a.isDigit
  | [a, b] => '0' ≤ a && a ≤ '5' && b.isDigit
  | _ => false

/-- The number of groups of sixty. -/
def ofGroups (groups : List (List Char)) : Nat :=
  groups.foldl (fun n g => 60 * n + ofDigits 10 g) 0

/-- An integer without its sign. -/
def natural? : List Char → Option Nat
  | [] => none
  | ['0'] => some 0
  | '0' :: mark :: rest =>
    if mark = 'b' && !rest.isEmpty && rest.all (fun c => c = '0' || c = '1' || c = '_') then
      some (ofDigits 2 rest)
    else if mark = 'x' && !rest.isEmpty && rest.all (fun c => Text.isHex c || c = '_') then
      some (ofDigits 16 rest)
    else if (mark :: rest).all (fun c => ('0' ≤ c && c ≤ '7') || c = '_') then
      some (ofDigits 8 (mark :: rest))
    else none
  | c :: rest =>
    match Text.cut ':' (c :: rest) with
    | whole :: groups =>
      if c.isDigit && whole.all isFiller && groups.all isGroup then
        some (ofGroups (whole :: groups))
      else none
    | [] => none

/-! ## Doubles -/

/-- A signed exponent that makes up the whole text; an empty text is the exponent zero. -/
def exponent? (cs : List Char) : Option Int :=
  match cs with
  | [] => some 0
  | _ :: sign :: _ =>
    if sign = '+' || sign = '-' then
      match Number.exponent? Char.isDigit cs with
      | some (power, taken) => if taken = cs.length then some power else none
      | none => none
    else none
  | _ => none

/-- Digits with a point among them, and an exponent. A text that starts with the point must have a
digit after it. -/
def decimal? (pointFirst : Bool) (cs : List Char) : Option Double :=
  let whole := cs.takeWhile isFiller
  match cs.dropWhile isFiller with
  | '.' :: rest =>
    let fraction := rest.takeWhile isFiller
    if startsWithDigit whole || (pointFirst && whole.isEmpty && startsWithDigit fraction) then
      (exponent? (rest.dropWhile isFiller)).map fun power =>
        Number.ofParts false (whole.filter (· ≠ '_')) (fraction.filter (· ≠ '_')) power
    else none
  | _ => none

/-- Groups of sixty, the last of which has a point. -/
def sixtieth? (cs : List Char) : Option Double :=
  let (front, fraction) := Text.splitFirst '.' cs
  match Text.cut ':' front with
  | whole :: group :: groups =>
    if cs.contains '.' && startsWithDigit whole && whole.all isFiller &&
        (group :: groups).all isGroup && fraction.all isFiller then
      let places := fraction.filter (· ≠ '_')
      let value :=
        ofGroups (whole :: group :: groups) * Nat.pow 10 places.length + ofDigits 10 places
      some (Double.ofDecimal false value (-places.length))
    else none
  | _ => none

def infiniteWords : List String := [".inf", ".Inf", ".INF"]

def nanWords : List String := [".nan", ".NaN", ".NAN"]

/-- A number without its sign; `signed` says that it has one. -/
def unsigned? (signed : Bool) (cs : List Char) : Option Number :=
  match natural? cs with
  | some n => some (.int n)
  | none =>
    match (decimal? (!signed) cs).or (sixtieth? cs) with
    | some d => some (.double d)
    | none =>
      let word := String.ofList cs
      if infiniteWords.contains word then some (.double (.infinite false))
      else if !signed && nanWords.contains word then some (.double .nan)
      else none

def number? : List Char → Option Number
  | '-' :: rest => (unsigned? true rest).map Number.neg
  | '+' :: rest => unsigned? true rest
  | cs => unsigned? false cs

/-- The spelling of numbers that are not finite. -/
def spelling : Spelling := ⟨".nan", ".inf", "-.inf"⟩

/-! ## Dates -/

/-- The text after at least `least` and at most `most` digits. -/
def afterDigits? (least most : Nat) (cs : List Char) : Option (List Char) :=
  let n := min most (cs.takeWhile Char.isDigit).length
  if least ≤ n then some (cs.drop n) else none

def after? (mark : Char) : List Char → Option (List Char)
  | [] => none
  | c :: rest => if c = mark then some rest else none

def isSpace (c : Char) : Bool := c = ' ' || c = '\t'

/-- A year, a month and a day, with the given least number of digits for the last two. -/
def afterDay? (least : Nat) (cs : List Char) : Option (List Char) := do
  let cs ← afterDigits? 4 4 cs
  let cs ← afterDigits? least 2 (← after? '-' cs)
  afterDigits? least 2 (← after? '-' cs)

/-- What parts a day from a time. -/
def afterGap? : List Char → Option (List Char)
  | [] => none
  | c :: rest =>
    if c = 'T' || c = 't' then some rest
    else if isSpace c then some (rest.dropWhile isSpace)
    else none

def afterTime? (cs : List Char) : Option (List Char) := do
  let cs ← afterDigits? 1 2 cs
  let cs ← afterDigits? 2 2 (← after? ':' cs)
  let cs ← afterDigits? 2 2 (← after? ':' cs)
  match cs with
  | '.' :: rest => some (rest.dropWhile Char.isDigit)
  | _ => some cs

/-- A time zone that makes up the whole text. -/
def isZone (cs : List Char) : Bool :=
  match cs.dropWhile isSpace with
  | ['Z'] => true
  | sign :: rest =>
    (sign = '+' || sign = '-') &&
      match afterDigits? 1 2 rest with
      | some [] => true
      | some (':' :: minutes) => afterDigits? 2 2 minutes = some []
      | _ => false
  | [] => false

/-- A day, or a day and a time. -/
def isDate (cs : List Char) : Bool :=
  afterDay? 2 cs = some [] ||
    match (do afterTime? (← afterGap? (← afterDay? 1 cs))) with
    | some rest => rest.isEmpty || isZone rest
    | none => false

/-! ## Meaning -/

/-- What a plain scalar denotes. -/
def plainMeaning (cs : List Char) : Plain :=
  let word := String.ofList cs
  if nullWords.contains word then .null
  else if trueWords.contains word then .bool true
  else if falseWords.contains word then .bool false
  else if markWords.contains word then .mark
  else match number? cs with
    | some n => .number n
    | none => if isDate cs then .date else .text

/-- The value of a plain scalar; dates and marks are taken as texts. -/
def plainValue (cs : List Char) : Json :=
  match plainMeaning cs with
  | .null => .null
  | .bool b => .bool b
  | .number n => .number n
  | .date | .mark | .text => .text (String.ofList cs)

end EventFlow.Yaml
