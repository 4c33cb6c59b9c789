import EventFlow.Number.Basic

/-!
Tokens of flow source, and cursors that say where they stand.

A cursor moves over a text one character at a time; a line break takes it to the first column of
the next line.
-/

namespace EventFlow

/-- What a token says. -/
inductive Lexeme where
  | identifier (name : String)
  | text (value : String)
  | template (value : String) (substitution : Bool)
  | number (value : Number)
  | punct (mark : String)
  | eof
  deriving DecidableEq, Repr, Inhabited

namespace Lexeme

/-- The lexeme as messages cite it. -/
def cited : Lexeme → String
  | .identifier name => name
  | .text value => value
  | .template value _ => value
  | .number value => value.write Number.plain
  | .punct mark => mark
  | .eof => "None"

end Lexeme

/-- A place in a text: how many characters stand before it, its line, and its column from one. -/
structure Cursor where
  offset : Nat
  line : Nat
  column : Nat
  deriving DecidableEq, Repr, Inhabited

namespace Cursor

def start (line : Nat) : Cursor := ⟨0, line, 1⟩

def step (here : Cursor) (c : Char) : Cursor :=
  if c = '\n' then ⟨here.offset + 1, here.line + 1, 1⟩
  else ⟨here.offset + 1, here.line, here.column + 1⟩

/-- The place after some text that begins here. -/
def advance (here : Cursor) (cs : List Char) : Cursor := cs.foldl step here

end Cursor

/-- A lexeme with its place: where it starts, the offset just after it, and the doc comment that
stands right before it. -/
structure Token where
  lexeme : Lexeme
  start : Cursor
  stop : Nat
  doc : Option String
  deriving DecidableEq, Repr, Inhabited

namespace Token

def line (t : Token) : Nat := t.start.line

def isPunct (t : Token) (mark : String) : Bool := t.lexeme == .punct mark

def isName (t : Token) (name : String) : Bool := t.lexeme == .identifier name

/-- The name, if the token is an identifier. -/
def name? (t : Token) : Option String :=
  match t.lexeme with
  | .identifier name => some name
  | _ => none

/-- The value, if the token is a text in quotes. -/
def text? (t : Token) : Option String :=
  match t.lexeme with
  | .text value => some value
  | _ => none

/-- The value, if the token is a number. -/
def number? (t : Token) : Option Number :=
  match t.lexeme with
  | .number value => some value
  | _ => none

def isEof (t : Token) : Bool := t.lexeme == .eof

end Token

end EventFlow
