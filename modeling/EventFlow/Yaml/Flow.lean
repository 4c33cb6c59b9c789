import EventFlow.Text.Blank
import EventFlow.Text.Units
import EventFlow.Yaml.Plain

/-!
Scalars and collections within a line of YAML.

A reader takes the characters from its first one on and gives back a value and the characters after
it. Collections in brackets may be nested, and go on over line breaks.
-/

namespace EventFlow.Yaml

/-- What is wrong with a text: characters that make no token here, or tokens that do not fit
together. -/
inductive Fault where
  | badToken
  | badStructure
  deriving DecidableEq, Repr

abbrev Reader (α : Type) := List Char → Except Fault (α × List Char)

/-! ## Texts in quotes -/

/-- A text in single quotes, from the character after the first one on. -/
def singleQuotedBody : Reader (List Char)
  | [] => .error .badToken
  | '\'' :: '\'' :: rest => do
    let (cs, after) ← singleQuotedBody rest
    return ('\'' :: cs, after)
  | '\'' :: rest => .ok ([], rest)
  | c :: rest => do
    let (cs, after) ← singleQuotedBody rest
    return (c :: cs, after)

/-- The code that a letter after a backslash stands for. -/
def letterEscape? (c : Char) : Option Nat :=
  match c with
  | '0' => some 0x00
  | 'a' => some 0x07
  | 'b' => some 0x08
  | 't' => some 0x09
  | '\t' => some 0x09
  | 'n' => some 0x0a
  | 'v' => some 0x0b
  | 'f' => some 0x0c
  | 'r' => some 0x0d
  | 'e' => some 0x1b
  | ' ' => some 0x20
  | '"' => some 0x22
  | '/' => some 0x2f
  | '\\' => some 0x5c
  | 'N' => some 0x85
  | '_' => some 0xa0
  | 'L' => some 0x2028
  | 'P' => some 0x2029
  | _ => none

/-- How many hexadecimal digits follow a letter after a backslash. -/
def hexWidth? (c : Char) : Option Nat :=
  match c with
  | 'x' => some 2
  | 'u' => some 4
  | 'U' => some 8
  | _ => none

/-- The code of an escape, from the letter after the backslash on, and how many characters it
takes. -/
def escapeAt (letter : Char) (rest : List Char) : Except Fault (Nat × Nat) :=
  match letterEscape? letter with
  | some code => .ok (code, 1)
  | none =>
    match hexWidth? letter with
    | some width =>
      let digits := rest.take width
      if digits.length = width && digits.all Text.isHex then .ok (Text.ofHexs digits, width + 1)
      else .error .badToken
    | none => .error .badToken

/-- A text in double quotes, as codes, from the character after the first one on. -/
def doubleQuotedBody (cs : List Char) : Except Fault (List Nat × List Char) :=
  match cs with
  | [] => .error .badToken
  | c :: rest =>
    if c = '"' then .ok ([], rest)
    else if c = '\\' then
      match rest with
      | [] => .error .badToken
      | letter :: more => do
        let (code, taken) ← escapeAt letter more
        let (codes, after) ← doubleQuotedBody (more.drop (taken - 1))
        return (code :: codes, after)
    else do
      let (codes, after) ← doubleQuotedBody rest
      return (c.toNat :: codes, after)
termination_by cs.length

/-- A text in quotes, if one stands here. -/
def quoted? (cs : List Char) : Option (Except Fault (String × List Char)) :=
  match cs with
  | '\'' :: rest => some do
    let (cs, after) ← singleQuotedBody rest
    return (String.ofList cs, after)
  | '"' :: rest => some do
    let (codes, after) ← doubleQuotedBody rest
    return (String.ofList (Text.ofUnits codes), after)
  | _ => none

/-! ## Plain scalars -/

/-- The blanks between tokens. -/
def isGapChar (c : Char) : Bool := c = ' ' || c = '\t' || c = '\n' || c = '\r'

/-- Whether a blank or the end of the text stands here. -/
def gapAhead (cs : List Char) : Bool :=
  match cs with
  | [] => true
  | c :: _ => isGapChar c

/-- The marks of collections in brackets. -/
def flowMarks : List Char := ",[]{}".toList

/-- The characters of other tokens, and those that are reserved. -/
def tokenMarks : List Char := "#&*!|>'\"%@`".toList

/-- Whether a plain scalar can start here. -/
def plainStarts (inFlow : Bool) (cs : List Char) : Bool :=
  match cs with
  | [] => false
  | c :: rest =>
    if isGapChar c || flowMarks.contains c || tokenMarks.contains c then false
    else if c = '-' then !gapAhead rest
    else if c = '?' || c = ':' then !inFlow && !gapAhead rest
    else true

/-- The characters of a plain scalar; `previous` is the character before them. -/
def plainChars (inFlow : Bool) (previous : Char) : List Char → List Char × List Char
  | [] => ([], [])
  | c :: rest =>
    let stop :=
      (c = ':' && (gapAhead rest || (inFlow && rest.head?.any flowMarks.contains))) ||
        (c = '#' && isGapChar previous) ||
        (inFlow && (flowMarks.contains c || c = '?'))
    if stop then ([], c :: rest)
    else
      let (cs, after) := plainChars inFlow c rest
      (c :: cs, after)

/-- A plain scalar with single spaces in the place of line breaks, and the text after it. -/
def plainScalar (inFlow : Bool) (cs : List Char) : List Char × List Char :=
  let (taken, after) := plainChars inFlow 'x' cs
  let taken := Text.trimChars taken
  (if taken.contains '\n' then (Text.squeeze (String.ofList taken)).toList else taken, after)

/-! ## Collections in brackets -/

/-- The text after blanks and comments. -/
def skipGaps (previous : Char) : List Char → List Char
  | [] => []
  | c :: rest =>
    if isGapChar c then skipGaps c rest
    else if c = '#' && isGapChar previous then skipComment rest
    else c :: rest
where
  skipComment : List Char → List Char
    | [] => []
    | c :: rest => if c = '\n' then skipGaps '\n' rest else skipComment rest

/-- The text of a key. -/
def keyText (v : Json) : String :=
  match v with
  | .text s => s
  | .null => "null"
  | .bool b => if b then "true" else "false"
  | .number n => n.write spelling
  | .array _ | .object _ => ""

/-- A value must stand here; what stands here cannot start one. -/
def noValue {α : Type} (cs : List Char) : Except Fault α :=
  match cs with
  | [] => .error .badStructure
  | c :: _ => .error (if tokenMarks.contains c && c ≠ '#' then .badToken else .badStructure)

mutual

/-- A value within brackets. -/
def flowValue : (fuel : Nat) → Reader Json
  | 0, _ => .error .badStructure
  | fuel + 1, cs =>
    match cs with
    | '[' :: rest => do
      let (items, after) ← flowItems fuel (skipGaps '[' rest)
      return (.array items, after)
    | '{' :: rest => do
      let (members, after) ← flowMembers fuel (skipGaps '{' rest)
      return (.object (Json.ofPairs members), after)
    | _ =>
      match quoted? cs with
      | some r => do
        let (s, after) ← r
        return (.text s, after)
      | none =>
        if plainStarts true cs then
          let (taken, after) := plainScalar true cs
          .ok (plainValue taken, after)
        else noValue cs

/-- The value after the colon of an entry, which may be missing. -/
def flowEntryValue : (fuel : Nat) → Reader Json
  | 0, _ => .error .badStructure
  | fuel + 1, cs =>
    match skipGaps ':' cs with
    | ',' :: rest => .ok (.null, ',' :: rest)
    | ']' :: rest => .ok (.null, ']' :: rest)
    | '}' :: rest => .ok (.null, '}' :: rest)
    | rest => flowValue fuel rest

/-- The items of a list up to its closing bracket; an entry alone is a mapping of its own. -/
def flowItems : (fuel : Nat) → Reader (List Json)
  | 0, _ => .error .badStructure
  | fuel + 1, cs =>
    match cs with
    | [] => .error .badStructure
    | ']' :: rest => .ok ([], rest)
    | _ => do
      let (v, rest) ← flowValue fuel cs
      let (v, rest) ← match skipGaps 'x' rest with
        | ':' :: rest => do
          let (w, rest) ← flowEntryValue fuel rest
          pure (Json.object [(keyText v, w)], skipGaps 'x' rest)
        | rest => pure (v, rest)
      match rest with
      | ',' :: rest => do
        let (vs, rest) ← flowItems fuel (skipGaps ',' rest)
        return (v :: vs, rest)
      | ']' :: rest => return ([v], rest)
      | _ => throw .badStructure

/-- The entries of a mapping up to its closing brace; one without a colon has the value null. -/
def flowMembers : (fuel : Nat) → Reader Json.Members
  | 0, _ => .error .badStructure
  | fuel + 1, cs =>
    match cs with
    | [] => .error .badStructure
    | '}' :: rest => .ok ([], rest)
    | _ => do
      let (key, rest) ← flowValue fuel cs
      let (v, rest) ← match skipGaps 'x' rest with
        | ':' :: rest => do
          let (v, rest) ← flowEntryValue fuel rest
          pure (v, skipGaps 'x' rest)
        | rest => pure (Json.null, rest)
      match rest with
      | ',' :: rest => do
        let (more, rest) ← flowMembers fuel (skipGaps ',' rest)
        return ((keyText key, v) :: more, rest)
      | '}' :: rest => return ([(keyText key, v)], rest)
      | _ => throw .badStructure

end

end EventFlow.Yaml
