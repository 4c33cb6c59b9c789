import EventFlow.Complaint
import EventFlow.Program.Fault
import EventFlow.Token.Basic

/-!
Token streams as the grammar reads them.

A stream marks the tokens that start on a later line than the token before them, because such a
token may begin a new statement. `closing?` finds the bracket that closes an open one:
angle brackets count only inside angle brackets, and any other closing bracket ends them.
-/

namespace EventFlow.Program

/-- A token, and whether it starts on a later line than the token before it. -/
structure Lexed where
  token : Token
  breaks : Bool
  deriving DecidableEq, Repr

abbrev Stream := List Lexed

/-- The stream of some tokens, given the line of the token before them. -/
def streamAfter (line : Nat) : List Token → Stream
  | [] => []
  | t :: rest => ⟨t, line < t.line⟩ :: streamAfter t.line rest

def stream : List Token → Stream
  | [] => []
  | t :: rest => ⟨t, false⟩ :: streamAfter t.line rest

abbrev Reader (α : Type) := Stream → Except (Complaint Fault) (α × Stream)

namespace Stream

/-- The stream after its first token. -/
def next (ts : Stream) : Stream := ts.tail

/-- The stream after `n` tokens. -/
def skip (ts : Stream) (n : Nat) : Stream := ts.drop n

/-- A complaint about the first token of the stream. -/
def fail {α : Type} (ts : Stream) (fault : Fault) : Except (Complaint Fault) α :=
  .error ⟨fault, ts.head?.map (·.token.line), none⟩

def isPunct (ts : Stream) (mark : String) : Bool := ts.head?.any (·.token.isPunct mark)

def isName (ts : Stream) (name : String) : Bool := ts.head?.any (·.token.isName name)

def isEof (ts : Stream) : Bool := ts.head?.all (·.token.isEof)

def name? (ts : Stream) : Option String := ts.head?.bind (·.token.name?)

def text? (ts : Stream) : Option String := ts.head?.bind (·.token.text?)

def number? (ts : Stream) : Option Number := ts.head?.bind (·.token.number?)

def line (ts : Stream) : Nat := (ts.head?.map (·.token.line)).getD 0

/-- The first token as messages cite it. -/
def cited (ts : Stream) : String := (ts.head?.map (·.token.lexeme.cited)).getD "None"

/-- A complaint that cites the first token; a number that is too long cannot be cited. -/
def failCiting {α : Type} (ts : Stream) (fault : String → Fault) : Except (Complaint Fault) α :=
  ts.fail (if ts.number?.any Number.isLong then .longNumber else fault ts.cited)

end Stream

/-! ## Single tokens -/

def expectPunct (mark : String) : Reader Unit := fun ts =>
  if ts.isPunct mark then .ok ((), ts.next)
  else if ts.isEof then ts.fail (.expectedMark mark "end of input")
  else ts.failCiting (.expectedMark mark)

def expectString : Reader String := fun ts =>
  match ts.text? with
  | some value => .ok (value, ts.next)
  | none => ts.fail .expectedString

def expectName : Reader String := fun ts =>
  match ts.name? with
  | some name => .ok (name, ts.next)
  | none => ts.failCiting .expectedName

/-- The end of a statement: a semicolon, or nothing before a closing brace, at the end of the
text, or before a token on a later line. -/
def endStatement : Reader Unit := fun ts =>
  if ts.isPunct ";" then .ok ((), ts.next)
  else if ts.isEof || ts.isPunct r"}" || ts.head?.any (·.breaks) then .ok ((), ts)
  else ts.failCiting .unexpectedToken

/-! ## Brackets -/

/-- The mark that closes a bracket. -/
def closer? : String → Option String
  | "(" => some ")"
  | "[" => some "]"
  | r"{" => some r"}"
  | "<" => some ">"
  | _ => none

/-- How many tokens stand before the one that closes the last of `open_`, the marks that close the
brackets now open, innermost first. -/
def closing? (open_ : List String) : Stream → Option Nat
  | [] => none
  | t :: rest =>
    match t.token.lexeme, open_ with
    | .eof, _ => none
    | .punct mark, top :: outer =>
      match closer? mark with
      | some close =>
        if mark ≠ "<" || top = ">" then (closing? (close :: open_) rest).map (· + 1)
        else (closing? open_ rest).map (· + 1)
      | none =>
        if mark = top then
          if outer.isEmpty then some 0 else (closing? outer rest).map (· + 1)
        else if top = ">" && [")", "]", r"}"].contains mark then none
        else (closing? open_ rest).map (· + 1)
    | _, _ => (closing? open_ rest).map (· + 1)

/-- How many tokens stand between an opening bracket and the one that closes it; the stream begins
after the opening bracket `mark`. -/
def closingOf? (mark : String) (ts : Stream) : Option Nat :=
  match closer? mark with
  | some close => closing? [close] ts
  | none => none

def typeEnds : List String := ["=", ";", ",", ")", "]", r"}"]

/-- Skips a type annotation up to a mark that ends it outside all brackets. -/
def skipType : Stream → Except (Complaint Fault) Stream
  | [] => Stream.fail [] .unterminatedType
  | t :: rest =>
    match t.token.lexeme with
    | .eof => Stream.fail (t :: rest) .unterminatedType
    | .punct mark =>
      if typeEnds.contains mark then .ok (t :: rest)
      else if (closer? mark).isSome then
        match closingOf? mark rest with
        | some n => skipType (rest.drop (n + 1))
        | none => Stream.fail (t :: rest) .unbalancedType
      else skipType rest
    | _ => skipType rest
termination_by ts => ts.length

/-- Skips a return type up to the arrow after it. -/
def skipToArrow : Stream → Except (Complaint Fault) Stream
  | [] => Stream.fail [] .expectedArrow
  | t :: rest =>
    match t.token.lexeme with
    | .eof => Stream.fail (t :: rest) .expectedArrow
    | .punct mark =>
      if mark = "=>" then .ok (t :: rest)
      else if (closer? mark).isSome then
        match closingOf? mark rest with
        | some n => skipToArrow (rest.drop (n + 1))
        | none => Stream.fail (t :: rest) .unbalancedReturnType
      else skipToArrow rest
    | _ => skipToArrow rest
termination_by ts => ts.length

end EventFlow.Program
