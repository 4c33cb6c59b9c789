import EventFlow.Text.Blank
import EventFlow.Text.Line
import EventFlow.Text.Word

/-!
Type declarations, found line by line.

A declaration starts on a line that begins with `type` and a name, and ends on the first line
where no brace, angle bracket or text is open any more and the code ends with a semicolon. When
another declaration starts before that, it ends on the line before it. Brackets inside texts and
comments do not count, and more closing than opening brackets count as none open.
-/

namespace EventFlow

open Text

/-- How a declaration ends: closed by its own text, cut off by the next one, or not at all. -/
inductive Ending where
  | closed
  | cutOff
  | missing
  deriving DecidableEq, Repr

/-- A type declaration on the lines from `start` to `stop`, counted from zero. -/
structure Declaration where
  name : String
  start : Nat
  stop : Nat
  ending : Ending
  deriving DecidableEq, Repr

namespace Declaration

def terminated (d : Declaration) : Bool := d.ending ≠ .missing

/-! ## One line -/

/-- What is open at the end of a line. -/
structure LineState where
  braces : Int := 0
  angles : Int := 0
  quote : Option Char := none
  inComment : Bool := false
  /-- Where a remark to the end of the last line begins. -/
  remark : Option Nat := none
  deriving DecidableEq, Repr

namespace LineState

/-- Texts in single or double quotes end with their line. -/
def endLine (s : LineState) : LineState :=
  if s.quote = some '\'' || s.quote = some '"' then { s with quote := none } else s

/-- The state after a character of code; `previous` is the character before it. -/
def code (s : LineState) (previous : Option Char) (c : Char) : LineState :=
  if c = '"' || c = '\'' || c = '`' then { s with quote := some c }
  else if c = '{' then { s with braces := s.braces + 1 }
  else if c = '}' then { s with braces := s.braces - 1 }
  else if c = '<' then { s with angles := s.angles + 1 }
  else if c = '>' && previous ≠ some '=' then { s with angles := s.angles - 1 }
  else s

/-- The state after the rest of a line, `index` characters of which are behind. -/
def past (s : LineState) (previous : Option Char) (index : Nat) : List Char → LineState
  | [] => s.endLine
  | c :: rest =>
    if s.inComment then
      if c = '*' && rest.head? = some '/' then
        { s with inComment := false }.past (some '/') (index + 2) (rest.drop 1)
      else s.past (some c) (index + 1) rest
    else match s.quote with
    | some q =>
      if c = '\\' then s.past rest.head? (index + 2) (rest.drop 1)
      else { s with quote := if c = q then none else some q }.past (some c) (index + 1) rest
    | none =>
      if c = '/' && rest.head? = some '/' then { s with remark := some index }
      else if c = '/' && rest.head? = some '*' then
        { s with inComment := true }.past (some '*') (index + 2) (rest.drop 1)
      else (s.code previous c).past (some c) (index + 1) rest
termination_by cs => cs.length

/-- The state after one more line. -/
def consume (s : LineState) (line : String) : LineState :=
  { s with remark := none }.past none 0 line.toList

def insideText (s : LineState) : Bool := s.inComment || s.quote.isSome

def balanced (s : LineState) : Bool := s.braces ≤ 0 && s.angles ≤ 0 && s.quote.isNone

/-- The line just consumed without the remark at its end. -/
def codePart (s : LineState) (line : String) : List Char :=
  match s.remark with
  | some n => trimChars (line.toList.take n)
  | none => trimChars line.toList

/-- Whether the line just consumed closes a declaration. -/
def closes (s : LineState) (line : String) : Bool :=
  s.balanced && !s.inComment && endsWith ";" (s.codePart line)

end LineState

/-! ## The first line of a declaration -/

def isNameStart (c : Char) : Bool := c.isAlpha || c = '_' || c = '$'

def isNamePart (c : Char) : Bool := isWord c || c = '$'

/-- A word followed by blanks: what comes after them. -/
def keyword? (word : String) (cs : List Char) : Option (List Char) :=
  match stripStart word.toList cs with
  | some (c :: rest) => if isBlank c then some (dropBlanks rest) else none
  | _ => none

/-- The name that a line declares, if it begins with `type` or `export type` and a name. -/
def declaredName? (line : String) : Option String :=
  let cs := line.toList
  match keyword? "type" ((keyword? "export" cs).getD cs) with
  | some (c :: rest) =>
    if isNameStart c then some (String.ofList (c :: rest.takeWhile isNamePart)) else none
  | _ => none

/-! ## All lines -/

/-- A declaration that is not closed yet. -/
structure Pending where
  name : String
  start : Nat
  state : LineState

/-- A declaration begins with this line: it is closed at once, or left pending. -/
def begin (name : String) (index : Nat) (line : String) : Declaration ⊕ Pending :=
  let state := LineState.consume {} line
  if state.closes line then .inl ⟨name, index, index, .closed⟩ else .inr ⟨name, index, state⟩

/-- The declarations from line `index` on. `outer` is the state of the code between declarations
and `pending` the declaration that the line may continue. -/
def scanFrom (index : Nat) (outer : LineState) (pending : Option Pending) :
    List String → List Declaration
  | [] =>
    match pending with
    | some p => [⟨p.name, p.start, index - 1, .missing⟩]
    | none => []
  | line :: rest =>
    match pending with
    | none =>
      match if outer.insideText then none else declaredName? line with
      | none => scanFrom (index + 1) (outer.consume line) none rest
      | some name =>
        match begin name index line with
        | .inl d => d :: scanFrom (index + 1) outer none rest
        | .inr p => scanFrom (index + 1) outer (some p) rest
    | some p =>
      match if p.state.insideText then none else declaredName? line with
      | none =>
        let state := p.state.consume line
        if state.closes line then
          ⟨p.name, p.start, index, .closed⟩ :: scanFrom (index + 1) outer none rest
        else scanFrom (index + 1) outer (some { p with state := state }) rest
      | some name =>
        ⟨p.name, p.start, index - 1, .cutOff⟩ ::
          match begin name index line with
          | .inl d => d :: scanFrom (index + 1) outer none rest
          | .inr p => scanFrom (index + 1) outer (some p) rest

/-- All declarations of a text, given by its lines. -/
def scan (lines : List String) : List Declaration := scanFrom 0 {} none lines

/-- A warning for each declaration that the next one cuts off. -/
def warnings : List Declaration → List String
  | d :: e :: rest =>
    let more := warnings (e :: rest)
    if d.ending = .cutOff then
      (s!"Type declaration '{d.name}' (line {d.start + 1}) not closed before " ++
        s!"'{e.name}' (line {e.start + 1}); terminating it at line {e.start}") :: more
    else more
  | _ => []

/-! ## The comment above a declaration -/

/-- A doc comment on the lines from `start` to `stop`. -/
structure LeadingDoc where
  start : Nat
  stop : Nat
  raw : String
  deriving DecidableEq, Repr

/-- Looks upward for the line that opens a comment. `above` holds the lines from the nearest on,
and `taken` those between it and the declaration, in order of the text. -/
def opening? (taken : List String) : (above : List String) → Option (List String)
  | [] => none
  | line :: above =>
    let start := dropBlanks line.toList
    if startsWith "/**" start then some (line :: taken)
    else if !taken.isEmpty && contains "*/" line.toList then none
    else if startsWith "/*" start then none
    else opening? (line :: taken) above

/-- The doc comment that ends on the line right above line `index`. -/
def leadingDoc? (lines : List String) (index : Nat) : Option LeadingDoc :=
  let above := (lines.take index).reverse
  match above with
  | [] => none
  | last :: _ =>
    if endsWith "*/" (dropTrailingBlanks last.toList) then
      (opening? [] above).map fun taken =>
        ⟨index - taken.length, index - 1, trim (unlines taken)⟩
    else none

end Declaration

end EventFlow
